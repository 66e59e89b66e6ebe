import DerivativeLexer.Text.Combining
import DerivativeLexer.Text.Unprintable

/-! # Escaped text

Messages quote characters in a form that shows what they are: a backslash before the characters
that have a short form, and the code point in hexadecimal for the ones that cannot be seen.
Which quotation marks are escaped, and whether a combining mark is, depends on where the text
stands; an `Escaping` says so, and the three that the library uses are given here. -/

namespace DerivativeLexer

/-- What is escaped besides the backslash and the characters that cannot be seen. -/
structure Escaping where
  singleQuote : Bool
  doubleQuote : Bool
  combining : Bool

/-- A character that stands alone, or first in a text: whatever could be misread is escaped. -/
def Escaping.alone : Escaping := ⟨true, true, true⟩

/-- A character inside a text, where a combining mark has a character to be drawn upon. -/
def Escaping.inside : Escaping := ⟨true, true, false⟩

def Escaping.quoted : Escaping := ⟨false, true, true⟩

def hexCode (c : Char) : String := String.ofList (Nat.toDigits 16 c.toNat)

def codeEscape (c : Char) : String := "\\u\x7b" ++ hexCode c ++ "\x7d"

/-- The short form of a character, for those that have one under the given rule. -/
def shortEscape? (e : Escaping) (c : Char) : Option String :=
  if c = '\x00' then some "\\0"
  else if c = '\t' then some "\\t"
  else if c = '\r' then some "\\r"
  else if c = '\n' then some "\\n"
  else if c = '\\' then some "\\\\"
  else if c = '"' && e.doubleQuote then some "\\\""
  else if c = '\'' && e.singleQuote then some "\\'"
  else none

def escapeChar (e : Escaping) (c : Char) : String :=
  match shortEscape? e c with
  | some s => s
  | none =>
    if (e.combining && isCombining c) || isUnprintable c then codeEscape c else String.singleton c

def quoted (s : String) : String :=
  "\"" ++ String.join (s.toList.map (escapeChar .quoted)) ++ "\""

/-- A text escaped so that both kinds of quotes could enclose it. -/
def escapeText (s : String) : String :=
  match s.toList with
  | [] => ""
  | c :: rest => escapeChar .alone c ++ String.join (rest.map (escapeChar .inside))

end DerivativeLexer
