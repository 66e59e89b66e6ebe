import DerivativeLexer.Decimal.Numeral
import DerivativeLexer.Language.Pattern
import DerivativeLexer.Rules.Table
import DerivativeLexer.Token.Basic

/-! # What the grammars share

Blanks, comments and integers are the same in both grammars, and so is the way in which a rule
emits the token for its match. A number that has the shape of a literal but no value becomes a
malformed token, so that lexing goes on behind it. -/

namespace DerivativeLexer

namespace Grammar

open DerivativeLexer.Language

variable {π : Type}

def digits : Language := (range '0' '9').oneOrMore

def integer : Language := (lit "-").optional.followedBy digits

def whitespace : Language := (oneOf " \r\t\n").oneOrMore

def comment : Language := (lit ";").followedBy (noneOf "\r\n").zeroOrMore

def emitMatch (kind : List Char → TokenKind) : Act Token π Unit := do
  let text ← Act.text
  let span ← Act.span
  Act.emit ⟨kind text, String.ofList text, span⟩

def emitToken (kind : TokenKind) (lexeme : String) : Act Token π Unit := do
  let span ← Act.span
  Act.emit ⟨kind, lexeme, span⟩

def integerKind (text : List Char) : TokenKind :=
  match readInteger text with
  | .ok n => .integer n
  | .error fault => .malformed .integer fault.message

/-- The value of a decimal literal; one that is not finite has none. -/
def decimalKind (text : List Char) : TokenKind :=
  match readDecimal? text with
  | some x => if x.isFinite then .decimal x else .malformed .decimal IntegerFault.tooLarge.message
  | none => .malformed .decimal "invalid float literal"

/-- Emits a character literal: the match after `lead` characters that introduce it. -/
def emitChar (lead : Nat) : Act Token π Unit := do
  let text ← Act.text
  match text[lead]? with
  | some c => emitToken (.char c) (String.ofList text)
  | none => pure ()

end Grammar

end DerivativeLexer
