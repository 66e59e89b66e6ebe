import DerivativeLexer.Position
import DerivativeLexer.Stream.Hub

/-! # Actions

An action runs when a rule fires. It sees the matched text and its span, and names the state to
go on in. What it sends out is collected in order: items for the output, the closing of the
output, and requests to input sources. States may carry a payload; an action reads the payloads
of a session and replaces them. A table has one type for all its payloads, and a slot says how
the payload of one state is kept in it. -/

namespace DerivativeLexer

/-- A state of a rule table, by its place in the order of declaration. -/
structure StateId where
  index : Nat
deriving DecidableEq

structure Matched where
  text : List Char
  span : Span

inductive Effect (τ : Type) where
  | emit (item : τ)
  | close
  | request (r : SourceRequest Char)
deriving DecidableEq

structure Payloads (π : Type) where
  stored : List (StateId × π)

namespace Payloads

variable {π : Type}

def empty : Payloads π := ⟨[]⟩

def get? (p : Payloads π) (s : StateId) : Option π := p.stored.lookup s

def erase (p : Payloads π) (s : StateId) : Payloads π := ⟨p.stored.filter (·.1 != s)⟩

def set (p : Payloads π) (s : StateId) (x : π) : Payloads π := ⟨(s, x) :: (p.erase s).stored⟩

theorem lookup_filter_ne {s t : StateId} (h : t ≠ s) (l : List (StateId × π)) :
    (l.filter (·.1 != s)).lookup t = l.lookup t := by
  induction l with
  | nil => rfl
  | cons e rest ih =>
    obtain ⟨k, x⟩ := e
    by_cases hk : k = s
    · have ht : (t == s) = false := by simpa using h
      simp [hk, List.lookup_cons, ih, ht]
    · simp [hk, List.lookup_cons, ih]

@[simp] theorem get?_set_self (p : Payloads π) (s : StateId) (x : π) :
    (p.set s x).get? s = some x := by
  simp [get?, set]

theorem get?_set_of_ne (p : Payloads π) {s t : StateId} (h : t ≠ s) (x : π) :
    (p.set s x).get? t = p.get? t := by
  have ht : (t == s) = false := by simpa using h
  simp only [get?, set, erase, List.lookup_cons, ht]
  exact lookup_filter_ne h p.stored

theorem get?_erase_of_ne (p : Payloads π) {s t : StateId} (h : t ≠ s) :
    (p.erase s).get? t = p.get? t :=
  lookup_filter_ne h p.stored

@[simp] theorem get?_erase_self (p : Payloads π) (s : StateId) : (p.erase s).get? s = none := by
  unfold get? erase
  induction p.stored with
  | nil => rfl
  | cons e rest ih =>
    obtain ⟨k, x⟩ := e
    by_cases hk : k = s
    · simpa [hk] using ih
    · have hs : (s == k) = false := by simpa using fun h : s = k => hk h.symm
      simpa [List.filter_cons, hk, List.lookup_cons, hs] using ih

end Payloads

structure Outbox (τ π : Type) where
  effects : List (Effect τ)
  payloads : Payloads π

/-- A part of an action, given the match. -/
abbrev Act (τ π : Type) := ReaderT Matched (StateM (Outbox τ π))

namespace Act

variable {τ π : Type}

def text : Act τ π (List Char) := fun m => pure m.text

def span : Act τ π Span := fun m => pure m.span

def send (e : Effect τ) : Act τ π Unit :=
  modify fun o => { o with effects := o.effects ++ [e] }

def emit (item : τ) : Act τ π Unit := send (.emit item)

/-- Closes the output; what is emitted later is lost. -/
def close : Act τ π Unit := send .close

def request (r : SourceRequest Char) : Act τ π Unit := send (.request r)

def emitted : Act τ π Nat := do
  let o ← get
  pure <| o.effects.countP fun
    | .emit _ => true
    | _ => false

def perform {α : Type} (act : Act τ π α) (m : Matched) (p : Payloads π) : α × Outbox τ π :=
  (act.run m).run ⟨[], p⟩

end Act

/-- How the payload of one state is kept among the payloads of a table. -/
structure Slot (π σ : Type) where
  state : StateId
  initial : σ
  wrap : σ → π
  unwrap? : π → Option σ

namespace Slot

variable {τ π σ : Type}

def read (slot : Slot π σ) (p : Payloads π) : σ :=
  ((p.get? slot.state).bind slot.unwrap?).getD slot.initial

def payload (slot : Slot π σ) : Act τ π σ := do
  let o ← get
  pure (slot.read o.payloads)

/-- Replaces the payload; the answer is the state to go to. -/
def enter (slot : Slot π σ) (x : σ) : Act τ π StateId := do
  modify fun o => { o with payloads := o.payloads.set slot.state (slot.wrap x) }
  pure slot.state

def take (slot : Slot π σ) : Act τ π σ := do
  let x ← slot.payload
  modify fun o => { o with payloads := o.payloads.erase slot.state }
  pure x

/-- Stores a payload unless the action has entered the state itself. -/
def putBack (slot : Slot π σ) (x : σ) : Act τ π Unit :=
  modify fun o =>
    match o.payloads.get? slot.state with
    | some _ => o
    | none => { o with payloads := o.payloads.set slot.state (slot.wrap x) }

/-- Runs an action on a working copy of the payload, which is stored afterwards. While it runs
the payload is out of its slot. -/
def update (slot : Slot π σ) (act : σ → Act τ π (StateId × σ)) : Act τ π StateId := do
  let before ← slot.take
  let (next, after) ← act before
  slot.putBack after
  pure next

end Slot

end DerivativeLexer
