import DerivativeLexer.Lexer.Basic

/-! # Matches in progress

While a match grows, every rule of the state keeps the derivative of its pattern by the text read
so far. A rule whose derivative rejects everything can never fire again and is dropped. -/

namespace DerivativeLexer

/-- A rule of the current state that may still fire: its place in the state, and what is left of
its pattern. -/
structure LiveRule where
  index : Nat
  language : Language
deriving DecidableEq

/-- The rules of `origin` that may still fire on the text from `start` on. -/
structure Matching where
  origin : StateId
  start : Position
  live : List LiveRule
deriving DecidableEq

namespace Matching

variable {τ π : Type}

def enter (t : RuleTable τ π) (s : StateId) (start : Position) : Matching where
  origin := s
  start := start
  live := (t.rules s).mapIdx fun i r => ⟨i, r.pattern⟩

def accepts (m : Matching) : Bool := m.live.any (·.language.acceptsEmpty)

def rejects (m : Matching) : Bool := m.live.all (·.language.rejectsAll)

/-- One rule matches the text read so far, it cannot match a longer one, and no other rule can
match at all. -/
def settled (m : Matching) : Bool :=
  match m.live.filter fun r => !r.language.rejectsAll with
  | [r] => r.language.onlyEmpty
  | _ => false

def winner? (m : Matching) : Option Nat :=
  (m.live.find? (·.language.acceptsEmpty)).map (·.index)

/-- The match after one more symbol, without the rules that it rules out. -/
def derive (m : Matching) (x : Symbol) : Matching :=
  { m with
    live := (m.live.map fun r => { r with language := r.language.derive x }).filter
      fun r => !r.language.rejectsAll }

theorem winner?_isSome (m : Matching) : m.winner?.isSome = m.accepts := by
  rw [winner?, accepts, Option.isSome_map, Bool.eq_iff_iff, List.find?_isSome, List.any_eq_true]

end Matching

end DerivativeLexer
