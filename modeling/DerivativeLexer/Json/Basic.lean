import DerivativeLexer.Decimal.Format
import DerivativeLexer.Text.Escape

/-! # Data in text form

Values of the usual interchange notation: nothing, truth values, numbers as they are written,
texts, lists, and objects with named members in their order. A text may be written with half of a
surrogate pair; then it stands for no characters, and its value is missing. The writer leaves no
blanks, and escapes in a text only what the notation requires. -/

namespace DerivativeLexer

/-- A value. A text without characters that it stands for is `none`; names may repeat. -/
inductive Json where
  | null
  | bool (b : Bool)
  | number (n : DecimalText)
  | text (s : Option (List Char))
  | list (items : List Json)
  | object (members : List (Option (List Char) × Json))

namespace Json

def hexByte (n : Nat) : List Char := [Nat.digitChar (n / 16), Nat.digitChar (n % 16)]

def renderChar (c : Char) : List Char :=
  if c = '"' then ['\\', '"']
  else if c = '\\' then ['\\', '\\']
  else if c = '\x08' then ['\\', 'b']
  else if c = '\x0c' then ['\\', 'f']
  else if c = '\n' then ['\\', 'n']
  else if c = '\r' then ['\\', 'r']
  else if c = '\t' then ['\\', 't']
  else if c.toNat < 0x20 then ['\\', 'u', '0', '0'] ++ hexByte c.toNat
  else [c]

def renderText (s : List Char) : List Char := '"' :: (s.flatMap renderChar ++ ['"'])

mutual

/-- A value without blanks. A text that stands for no characters is written as the empty one. -/
def render : Json → List Char
  | null => ['n', 'u', 'l', 'l']
  | bool true => ['t', 'r', 'u', 'e']
  | bool false => ['f', 'a', 'l', 's', 'e']
  | number n => n.render
  | text s => renderText (s.getD [])
  | list items => '[' :: renderItems items
  | object members => '\x7b' :: renderMembers members

def renderItems : List Json → List Char
  | [] => [']']
  | [j] => j.render ++ [']']
  | j :: rest => j.render ++ ',' :: renderItems rest

def renderMembers : List (Option (List Char) × Json) → List Char
  | [] => ['\x7d']
  | [(name, j)] => renderText (name.getD []) ++ ':' :: (j.render ++ ['\x7d'])
  | (name, j) :: rest =>
    renderText (name.getD []) ++ ':' :: (j.render ++ ',' :: renderMembers rest)

end

def ofString (s : String) : Json := text (some s.toList)

def record (members : List (String × Json)) : Json :=
  object (members.map fun m => (some m.1.toList, m.2))

end Json

end DerivativeLexer
