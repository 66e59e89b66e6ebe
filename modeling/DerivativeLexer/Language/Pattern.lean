import DerivativeLexer.Language.Basic

/-! # Patterns

Short ways to write the languages that rule tables are made of: texts, one character out of a
text or an interval, and one character outside of it. -/

namespace DerivativeLexer

namespace Language

def text : List Char → Language
  | [] => emptyString
  | [c] => literal c
  | c :: rest => (literal c).followedBy (text rest)

def lit (s : String) : Language := text s.toList

def oneOf (s : String) : Language := charSet (.ofList s.toList)

def noneOf (s : String) : Language := negatedCharSet (.ofList s.toList)

def range (lo hi : Char) : Language := charSet (.interval lo hi)

def negatedRange (lo hi : Char) : Language := negatedCharSet (.interval lo hi)

end Language

end DerivativeLexer
