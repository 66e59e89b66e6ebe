import DerivativeLexer.Json.Reader
import DerivativeLexer.Json.Scaled
import DerivativeLexer.Token.Basic

/-! # Tokens as data

A token is written as an object of its kind, its text and its place; a kind is an object with one
member, named for its class. In reading, an object may have its members in any order and others
besides, but each of its own exactly once; a list of exactly the members in their order will do
as well. -/

namespace DerivativeLexer

/-- Numbers in data: positional from a hundred-thousandth on and below 10 ^ 16, with a zero behind
the point of an integral number; a tie goes to the even digit. -/
def dataDecimal : DecimalFormat := ⟨fun e => -5 ≤ e && e < 16, ['0'], .even⟩

namespace Json

/-- The values of the named members, in the order of the names. -/
def fields? (names : List String) : Json → Option (List Json)
  | list items => if items.length = names.length then some items else none
  | object members =>
    if members.all fun m => m.1.isSome then
      names.mapM fun name =>
        match members.filter fun m => m.1 == some name.toList with
        | [(_, j)] => some j
        | _ => none
    else none
  | _ => none

def string? : Json → Option String
  | text s => s.map String.ofList
  | _ => none

def bool? : Json → Option Bool
  | bool b => some b
  | _ => none

def char? : Json → Option Char
  | text (some [c]) => some c
  | _ => none

def natural? : Json → Option Nat
  | number n => n.integer?.bind fun k => if 0 ≤ k then some k.toNat else none
  | _ => none

def integer? : Json → Option Int64
  | number n => n.integer?.bind fun k => (fitInteger k).toOption
  | _ => none

def binary? : Json → Option Binary64
  | number n => n.binary?
  | _ => none

def single? : Json → Option (String × Json)
  | object [(some name, j)] => some (String.ofList name, j)
  | _ => none

end Json

namespace Position

def toJson (p : Position) : Json :=
  .record
    [("offset", .number (.ofInt p.offset)), ("line", .number (.ofInt p.line)),
      ("column", .number (.ofInt p.column))]

def ofJson? (j : Json) : Option Position := do
  match ← j.fields? ["offset", "line", "column"] with
  | [offset, line, column] =>
    pure ⟨← offset.natural?, ← line.natural?, ← column.natural?⟩
  | _ => none

end Position

namespace Span

def toJson (s : Span) : Json := .record [("start", s.start.toJson), ("end", s.stop.toJson)]

def ofJson? (j : Json) : Option Span := do
  match ← j.fields? ["start", "end"] with
  | [start, stop] => pure ⟨← Position.ofJson? start, ← Position.ofJson? stop⟩
  | _ => none

end Span

namespace TokenTag

def toJson (t : TokenTag) : Json := .ofString t.label

/-- A class by its name, alone or as the name of nothing. -/
def ofJson? : Json → Option TokenTag
  | .text (some s) => ofLabel? (String.ofList s)
  | .object [(some name, .null)] => ofLabel? (String.ofList name)
  | _ => none

end TokenTag

namespace TokenKind

/-- The value of a kind; a decimal that is not finite has none. -/
def valueToJson : TokenKind → Json
  | opening s | closing s | punct s | symbol s | string s | keyword s => .ofString s
  | integer n => .number (.ofInt n.toInt)
  | decimal x => if x.isFinite then .number (dataDecimal.write x) else .null
  | char c => .text (some [c])
  | boolean b => .bool b
  | malformed expected reason =>
    .record [("expected", expected.toJson), ("reason", .ofString reason)]

def toJson (k : TokenKind) : Json := .record [(k.tag.label, k.valueToJson)]

def ofValue? (tag : TokenTag) (j : Json) : Option TokenKind :=
  match tag with
  | .opening => j.string?.map opening
  | .closing => j.string?.map closing
  | .punct => j.string?.map punct
  | .symbol => j.string?.map symbol
  | .integer => j.integer?.map integer
  | .decimal => j.binary?.map decimal
  | .string => j.string?.map string
  | .char => j.char?.map char
  | .boolean => j.bool?.map boolean
  | .keyword => j.string?.map keyword
  | .malformed => do
    match ← j.fields? ["expected", "reason"] with
    | [expected, reason] => pure (malformed (← TokenTag.ofJson? expected) (← reason.string?))
    | _ => none

def ofJson? (j : Json) : Option TokenKind := do
  let (name, value) ← j.single?
  ofValue? (← TokenTag.ofLabel? name) value

end TokenKind

namespace Token

def toJson (t : Token) : Json :=
  .record [("kind", t.kind.toJson), ("lexeme", .ofString t.lexeme), ("span", t.span.toJson)]

def ofJson? (j : Json) : Option Token := do
  match ← j.fields? ["kind", "lexeme", "span"] with
  | [kind, lexeme, span] =>
    pure ⟨← TokenKind.ofJson? kind, ← lexeme.string?, ← Span.ofJson? span⟩
  | _ => none

def serialize (t : Token) : String := String.ofList t.toJson.render

def deserialize? (s : String) : Option Token := (Json.read? s.toList).bind ofJson?

def serializeAll (ts : List Token) : String := String.ofList (Json.list (ts.map toJson)).render

def deserializeAll? (s : String) : Option (List Token) :=
  match Json.read? s.toList with
  | some (.list items) => items.mapM ofJson?
  | _ => none

end Token

end DerivativeLexer
