import DerivativeLexer.Language.Basic
import DerivativeLexer.Text.Escape

/-! # Written languages

Two ways to write a language down: an expression for messages, in the usual notation of regular
expressions, and the list of its nodes from the root on, for inspection. -/

namespace DerivativeLexer

namespace Language

def renderSet (s : CharSet) : String := String.join (s.members.map (escapeChar .alone))

/-- The expression. Concatenation is juxtaposition; a union stands in parentheses. -/
def render : Language → String
  | literal c => "'" ++ escapeChar .alone c ++ "'"
  | charSet s => "[" ++ renderSet s ++ "]"
  | negatedCharSet s => "[^" ++ renderSet s ++ "]"
  | anyChar => "."
  | endOfInput => "$$$"
  | emptyLanguage => "∅"
  | emptyString => "ε"
  | concat a b => a.render ++ b.render
  | union a b => "(" ++ a.render ++ "|" ++ b.render ++ ")"
  | star a => "(" ++ a.render ++ ")*"
  | power a n => "(" ++ a.render ++ ")\x7b" ++ toString n ++ "\x7d"

def inspect (a : Language) : String := "Language(" ++ a.render ++ ")"

def nodeWithSet (name : String) (s : CharSet) : String :=
  " ".intercalate (name :: s.members.map hexCode)

/-- The nodes of the expression tree, each before its operands. -/
def nodes : Language → List String
  | literal c => ["Literal " ++ hexCode c]
  | charSet s => [nodeWithSet "CharSet" s]
  | negatedCharSet s => [nodeWithSet "NegatedCharSet" s]
  | anyChar => ["AnyChar"]
  | endOfInput => ["EndOfInput"]
  | emptyLanguage => ["EmptyLanguage"]
  | emptyString => ["EmptyString"]
  | concat a b => "Concat" :: (a.nodes ++ b.nodes)
  | union a b => "Union" :: (a.nodes ++ b.nodes)
  | star a => "Star" :: a.nodes
  | power a n => ("Repeat " ++ toString n) :: a.nodes

theorem length_nodes (a : Language) : a.nodes.length = a.size := by
  induction a with
  | concat a b iha ihb => simp only [nodes, size, List.length_cons, List.length_append]; omega
  | union a b iha ihb => simp only [nodes, size, List.length_cons, List.length_append]; omega
  | star a ih => simp only [nodes, size, List.length_cons]; omega
  | power a n ih => simp only [nodes, size, List.length_cons]; omega
  | _ => rfl

end Language

end DerivativeLexer
