import DerivativeLexer.Grammar.Literal

/-! # String literals

A double quote enters a state of its own, whose payload gathers the literal: where it began, its
value, and its text. A backslash before a quote, a backslash, an `n` or a `t` stands with it for
one character; any other backslash stands for itself. The closing quote emits the token and goes
back to the main state. -/

namespace DerivativeLexer

structure StringBody where
  start : Position
  value : List Char
  lexeme : List Char
deriving DecidableEq

namespace Grammar

open DerivativeLexer.Language RuleTable.Build

variable {π : Type}

def emptyBody : StringBody := ⟨.start, [], []⟩

def stringEscapes : List (Char × Char) := [('"', '"'), ('n', '\n'), ('t', '\t'), ('\\', '\\')]

def openString (slot : Slot π StringBody) : Act Token π StateId := do
  let span ← Act.span
  slot.enter ⟨span.start, [], ['"']⟩

def closeString (main : StateId) (body : StringBody) : Act Token π (StateId × StringBody) := do
  let span ← Act.span
  let lexeme := body.lexeme ++ ['"']
  Act.emit ⟨.string (String.ofList body.value), String.ofList lexeme, ⟨body.start, span.stop⟩⟩
  pure (main, { body with value := [], lexeme := [] })

/-- Appends the match to the text of the literal, and what it stands for to its value. -/
def growString (s : StateId) (meaning : List Char → List Char) (body : StringBody) :
    Act Token π (StateId × StringBody) := do
  let text ← Act.text
  pure (s, { body with value := body.value ++ meaning text, lexeme := body.lexeme ++ text })

/-- Declares the state of string literals and the rule of `main` that enters it. -/
def stringRules (wrap : StringBody → π) (unwrap? : π → Option StringBody) (main : StateId) :
    RuleTable.Build Token π Unit := do
  let state ← declare "string"
  let slot : Slot π StringBody := ⟨state, emptyBody, wrap, unwrap?⟩
  addRule main (lit "\"") (openString slot)
  update slot (lit "\"") (closeString main)
  for (mark, meaning) in stringEscapes do
    update slot ((lit "\\").followedBy (literal mark)) (growString state fun _ => [meaning])
  update slot anyChar (growString state id)

end Grammar

end DerivativeLexer
