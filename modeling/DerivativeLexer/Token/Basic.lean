import DerivativeLexer.Decimal.Format
import DerivativeLexer.Position
import DerivativeLexer.Text.Escape

/-! # Tokens

A token has a kind, the text it was read from, and the place of that text. The kind carries the
value; its tag is the lexical class alone. A literal that has the right shape but no value, such
as an integer that does not fit, is a token of the kind `malformed`. -/

namespace DerivativeLexer

inductive TokenTag where
  | opening
  | closing
  | punct
  | symbol
  | integer
  | decimal
  | string
  | char
  | boolean
  | keyword
  | malformed
deriving DecidableEq

namespace TokenTag

def all : List TokenTag :=
  [opening, closing, punct, symbol, integer, decimal, string, char, boolean, keyword, malformed]

def rank : TokenTag → Nat
  | opening => 0
  | closing => 1
  | punct => 2
  | symbol => 3
  | integer => 4
  | decimal => 5
  | string => 6
  | char => 7
  | boolean => 8
  | keyword => 9
  | malformed => 10

theorem all_getElem?_rank (t : TokenTag) : all[t.rank]? = some t := by cases t <;> rfl

theorem rank_injective {s t : TokenTag} (h : s.rank = t.rank) : s = t := by
  have hs := all_getElem?_rank s
  rw [h, all_getElem?_rank t] at hs
  exact (Option.some.inj hs).symm

def describe : TokenTag → String
  | opening => "open"
  | closing => "close"
  | punct => "punctuation"
  | symbol => "symbol"
  | integer => "integer"
  | decimal => "decimal"
  | string => "string"
  | char => "character"
  | boolean => "boolean"
  | keyword => "keyword"
  | malformed => "malformed"

def label : TokenTag → String
  | opening => "Open"
  | closing => "Close"
  | punct => "Punct"
  | symbol => "Symbol"
  | integer => "Integer"
  | decimal => "Decimal"
  | string => "String"
  | char => "Char"
  | boolean => "Boolean"
  | keyword => "Keyword"
  | malformed => "Malformed"

def ofLabel? (s : String) : Option TokenTag := all.find? (·.label == s)

theorem ofLabel?_label (t : TokenTag) : ofLabel? t.label = some t := by cases t <;> decide

end TokenTag

inductive TokenKind where
  | opening (text : String)
  | closing (text : String)
  | punct (text : String)
  | symbol (name : String)
  | integer (value : Int64)
  | decimal (value : Binary64)
  | string (value : String)
  | char (value : Char)
  | boolean (value : Bool)
  | keyword (name : String)
  | malformed (expected : TokenTag) (reason : String)
deriving DecidableEq

namespace TokenKind

def tag : TokenKind → TokenTag
  | opening _ => .opening
  | closing _ => .closing
  | punct _ => .punct
  | symbol _ => .symbol
  | integer _ => .integer
  | decimal _ => .decimal
  | string _ => .string
  | char _ => .char
  | boolean _ => .boolean
  | keyword _ => .keyword
  | malformed _ _ => .malformed

def isLiteral (k : TokenKind) : Bool :=
  match k.tag with
  | .integer | .decimal | .string | .char | .boolean | .keyword => true
  | .opening | .closing | .punct | .symbol | .malformed => false

/-- The token as a reader of messages sees it. -/
def render : TokenKind → String
  | opening s | closing s | punct s | symbol s | keyword s => s
  | integer n => toString n.toInt
  | decimal x => x.render
  | string s => "\"" ++ escapeText s ++ "\""
  | char c => "\\" ++ String.singleton c
  | boolean b => if b then "true" else "false"
  | malformed expected reason => "<malformed " ++ expected.describe ++ ": " ++ reason ++ ">"

end TokenKind

/-- A token: what it is, the text it was read from, and where that text stands. -/
structure Token where
  kind : TokenKind
  lexeme : String
  span : Span
deriving DecidableEq

namespace Token

def tag (t : Token) : TokenTag := t.kind.tag

def render (t : Token) : String :=
  t.kind.render ++ " at line " ++ toString t.span.start.line ++
    ", column " ++ toString t.span.start.column

end Token

end DerivativeLexer
