import DerivativeLexer.Grammar.StringLiteral
import DerivativeLexer.Lexer.Run

/-! # Scheme

Brackets of three shapes and vectors, the quoting marks, integers, strings, characters, truth
values and identifiers. Block comments between `#!` and `!#` nest; a state of its own counts how
deep. -/

namespace DerivativeLexer

namespace Scheme

open DerivativeLexer.Language Grammar RuleTable.Build

def openers : List String := ["#(", "(", "[", "\x7b"]

def closers : List String := [")", "]", "\x7d"]

def marks : List String := [",@", ",", "`", "'"]

/-- A `#` may go on in an identifier but not start one. -/
def identifier : Language :=
  let body :=
    (((range 'A' 'Z').or (range 'a' 'z')).or (range '0' '9')).or (oneOf "-+/*_?%$&^=!@<>:")
  body.followedBy (body.or (lit "#")).zeroOrMore

/-- What the states of the table carry: the depth of a block comment, or a string literal. -/
inductive Payload where
  | depth (n : Nat)
  | string (body : StringBody)
deriving DecidableEq

def Payload.depth? : Payload → Option Nat
  | depth n => some n
  | string _ => none

def Payload.string? : Payload → Option StringBody
  | string body => some body
  | depth _ => none

def openBlock (block : StateId) (depth : Nat) : Act Token Payload (StateId × Nat) :=
  pure (block, depth + 1)

/-- One comment less is open; behind the outermost lexing goes on in `main`. -/
def closeBlock (main block : StateId) (depth : Nat) : Act Token Payload (StateId × Nat) :=
  if depth ≤ 1 then pure (main, depth) else pure (block, depth - 1)

def rules : RuleTable Token Payload := table do
  let main ← declare "main"
  let block ← declare "block-comment"
  let depth : Slot Payload Nat := ⟨block, 0, .depth, Payload.depth?⟩
  addRule main (lit "#!") (depth.enter 1)
  stringRules .string Payload.string? main
  for mark in marks do
    stay main (lit mark) (emitToken (.punct mark) mark)
  for opener in openers do
    stay main (lit opener) (emitToken (.opening opener) opener)
  for closer in closers do
    stay main (lit closer) (emitToken (.closing closer) closer)
  stay main (lit ".") (emitToken (.punct ".") ".")
  stay main (lit "#t") (emitToken (.boolean true) "#t")
  stay main (lit "#f") (emitToken (.boolean false) "#f")
  stay main endOfInput Act.close
  stay main whitespace (pure ())
  stay main comment (pure ())
  stay main ((lit "#\\").followedBy anyChar) (emitChar 2)
  stay main integer (emitMatch integerKind)
  stay main identifier (emitMatch fun text => .symbol (String.ofList text))
  update depth (lit "#!") (openBlock block)
  stay block anyChar (pure ())
  update depth (lit "!#") (closeBlock main block)

def lexer (config : LexerConfig) : Except LexError (Lexer Token Payload) :=
  Lexer.build rules config

def tokenize (source : String) : Except LexError (List Token) := do
  let l ← lexer .standard
  l.tokenize source.toList

end Scheme

end DerivativeLexer
