import DerivativeLexer.Grammar.StringLiteral
import DerivativeLexer.Lexer.Run

/-! # KLisp

Parentheses, integers, decimals, strings, characters behind a backslash, the two truth values,
keywords and symbols. Blanks and comments yield no token. -/

namespace DerivativeLexer

namespace KLisp

open DerivativeLexer.Language Grammar RuleTable.Build

def symbolHead : Language :=
  ((range 'A' 'Z').or (range 'a' 'z')).or (oneOf "+/*_?%$#&^=!@<>")

def symbolBody : Language := (symbolHead.or (range '0' '9')).or (oneOf "-:")

/-- A minus starts a symbol only if what follows keeps it from being a number. -/
def symbol : Language :=
  let plain := symbolHead.followedBy symbolBody.zeroOrMore
  let dashed :=
    ((lit "-").followedBy (symbolHead.or (oneOf "-:"))).followedBy symbolBody.zeroOrMore
  plain.or dashed

def keyword : Language := (lit ":").followedBy symbolBody.oneOrMore

/-- Digits with a point before or among them or none at all, and an optional exponent. -/
def decimal : Language :=
  let lead :=
    ((lit "-").optional.followedBy (lit ".").optional).or (integer.followedBy (lit "."))
  let exponent := ((oneOf "eE").followedBy integer).optional
  (lead.followedBy digits).followedBy exponent

/-- The only payload is the string literal in progress. -/
def rules : RuleTable Token StringBody := table do
  let main ← declare "main"
  stringRules id some main
  stay main (lit "(") (emitToken (.opening "(") "(")
  stay main (lit ")") (emitToken (.closing ")") ")")
  stay main (lit "true") (emitToken (.boolean true) "true")
  stay main (lit "false") (emitToken (.boolean false) "false")
  stay main endOfInput Act.close
  stay main whitespace (pure ())
  stay main comment (pure ())
  stay main integer (emitMatch integerKind)
  stay main decimal (emitMatch decimalKind)
  stay main keyword (emitMatch fun text => .keyword (String.ofList text))
  stay main symbol (emitMatch fun text => .symbol (String.ofList text))
  stay main ((lit "\\").followedBy anyChar) (emitChar 1)

def lexer (config : LexerConfig) : Except LexError (Lexer Token StringBody) :=
  Lexer.build rules config

def tokenize (source : String) : Except LexError (List Token) := do
  let l ← lexer .standard
  l.tokenize source.toList

end KLisp

end DerivativeLexer
