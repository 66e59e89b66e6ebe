import DerivativeLexer.Language.Printer
import DerivativeLexer.LexError
import DerivativeLexer.Rules.Action

/-! # Rule tables

A table lists states by name, each with its rules in the order of their declaration; that order
decides between rules that match the same text. Lexing starts in the state declared first. A
pattern that has the empty word is refused, because its rule could fire for ever without reading
anything. Tables are written as programs that declare states and rules one after another. -/

namespace DerivativeLexer

structure Rule (τ π : Type) where
  pattern : Language
  action : Act τ π StateId

structure StateRules (τ π : Type) where
  name : String
  rules : List (Rule τ π)

structure RuleTable (τ π : Type) where
  states : List (StateRules τ π)

namespace RuleTable

variable {τ π : Type}

def empty : RuleTable τ π := ⟨[]⟩

def initial : StateId := ⟨0⟩

def size (t : RuleTable τ π) : Nat := t.states.length

def isEmpty (t : RuleTable τ π) : Bool := t.states.isEmpty

def name (t : RuleTable τ π) (s : StateId) : String :=
  match t.states[s.index]? with
  | some st => st.name
  | none => "<undeclared>"

/-- The rules of a state in their order; a state that was not declared has none. -/
def rules (t : RuleTable τ π) (s : StateId) : List (Rule τ π) :=
  match t.states[s.index]? with
  | some st => st.rules
  | none => []

/-- The first rule whose pattern has the empty word, in the order of states and then of rules,
with the name of its state. -/
def firstNullable? (t : RuleTable τ π) : Option (String × Language) :=
  t.states.findSome? fun st =>
    (st.rules.find? (·.pattern.acceptsEmpty)).map fun r => (st.name, r.pattern)

def inspect (t : RuleTable τ π) : String :=
  "\x7b" ++ ", ".intercalate (t.states.map fun st =>
    quoted st.name ++ ": " ++ toString st.rules.length) ++ "\x7d"

def modifyRules (t : RuleTable τ π) (s : StateId)
    (change : List (Rule τ π) → List (Rule τ π)) : RuleTable τ π :=
  ⟨t.states.modify s.index fun st => { st with rules := change st.rules }⟩

abbrev Build (τ π : Type) := StateM (RuleTable τ π)

namespace Build

def declare (name : String) : Build τ π StateId := fun t =>
  (⟨t.states.length⟩, ⟨t.states ++ [⟨name, []⟩]⟩)

def addRule (s : StateId) (pattern : Language) (action : Act τ π StateId) : Build τ π Unit :=
  modify fun t => t.modifyRules s (· ++ [⟨pattern, action⟩])

def stay (s : StateId) (pattern : Language) (act : Act τ π Unit) : Build τ π Unit :=
  addRule s pattern do
    act
    pure s

/-- A rule of a state with a payload; the action works on a copy of the payload. -/
def update {σ : Type} (slot : Slot π σ) (pattern : Language)
    (act : σ → Act τ π (StateId × σ)) : Build τ π Unit :=
  addRule slot.state pattern (slot.update act)

def reset (s : StateId) : Build τ π Unit := modify fun t => t.modifyRules s fun _ => []

def table {α : Type} (program : Build τ π α) : RuleTable τ π := (program.run empty).2

end Build

end RuleTable

end DerivativeLexer
