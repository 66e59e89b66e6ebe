import DerivativeLexer.Stream.Source

/-! # Readers

A reader pulls items out of a source and remembers every item that it has drawn, so that any
place it has passed can be read again. A place is an offset into all the items that the source
ever hands out. A feed is a reader attached to its source; a place of it is plugged when no item
is remembered there and none is queued. There is no waiting: at a plugged place the answer is
that there is nothing yet. -/

namespace DerivativeLexer

/-- What a reader has drawn; its first item stands at the offset `start`. These are the heads that a
chain of nodes caches from its root on. `Venue.nodes_agree` spells the nodes out. -/
structure Reader (α : Type) where
  start : Nat
  drawn : Array α
deriving DecidableEq

namespace Reader

variable {α : Type}

def of (s : Source α) : Reader α := ⟨s.pulled, #[]⟩

def reach (r : Reader α) : Nat := r.start + r.drawn.size

def drawnAt? (r : Reader α) (offset : Nat) : Option α :=
  if r.start ≤ offset then r.drawn[offset - r.start]? else none

def remember (r : Reader α) (a : α) : Reader α := { r with drawn := r.drawn.push a }

def between (r : Reader α) (first last : Nat) : List α :=
  (r.drawn.extract (first - r.start) (last - r.start)).toList

end Reader

structure Feed (α : Type) where
  source : Source α
  reader : Reader α
deriving DecidableEq

namespace Feed

variable {α : Type}

/-- No item is remembered at the offset and none is queued. -/
def plugged (f : Feed α) (offset : Nat) : Bool :=
  (f.reader.drawnAt? offset).isNone && !f.source.hasNext

/-- The place is plugged and will stay so. -/
def ended (f : Feed α) (offset : Nat) : Bool := f.plugged offset && f.source.closed

/-- The item at an offset, drawn from the source if it is not remembered. -/
def head? (f : Feed α) (offset : Nat) : Option (α × Feed α) :=
  match f.reader.drawnAt? offset with
  | some a => some (a, f)
  | none =>
    match f.source.pull? with
    | some (a, rest) => some (a, ⟨rest, f.reader.remember a⟩)
    | none => none

/-- The first `n` items from an offset on, or as many as there are. -/
def take (f : Feed α) (offset : Nat) : Nat → List α × Feed α
  | 0 => ([], f)
  | n + 1 =>
    match f.head? offset with
    | none => ([], f)
    | some (a, next) =>
      let (rest, last) := next.take (offset + 1) n
      (a :: rest, last)

def available (f : Feed α) (offset : Nat) : List α × Feed α :=
  f.take offset (f.reader.reach - offset + f.source.queue.length)

theorem head?_eq_none_iff {f : Feed α} {offset : Nat} :
    f.head? offset = none ↔ f.plugged offset = true := by
  unfold head? plugged Source.pull? Source.hasNext
  cases hr : f.reader.drawnAt? offset with
  | some a => simp
  | none => cases hq : f.source.queue <;> simp

end Feed

end DerivativeLexer
