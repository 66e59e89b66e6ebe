/-! # Sources

A source is the writing end of a stream. It queues the items that were pushed until somebody
pulls them, counts what was pulled, and may be closed. A closed source accepts nothing more but
keeps what is queued. -/

namespace DerivativeLexer

structure Source (α : Type) where
  queue : List α
  pulled : Nat
  closed : Bool
deriving DecidableEq

namespace Source

variable {α : Type}

def fresh : Source α := ⟨[], 0, false⟩

def complete (items : List α) : Source α := ⟨items, 0, true⟩

/-- Appends items; a closed source drops them. -/
def push (s : Source α) (items : List α) : Source α :=
  if s.closed then s else { s with queue := s.queue ++ items }

def close (s : Source α) : Source α := { s with closed := true }

def pull? (s : Source α) : Option (α × Source α) :=
  match s.queue with
  | [] => none
  | a :: rest => some (a, { s with queue := rest, pulled := s.pulled + 1 })

def hasNext (s : Source α) : Bool := !s.queue.isEmpty

def isEmpty (s : Source α) : Bool := s.queue.isEmpty && s.closed

@[simp] theorem push_closed {s : Source α} (h : s.closed = true) (items : List α) :
    s.push items = s := by
  simp [push, h]

@[simp] theorem queue_push_open {s : Source α} (h : s.closed = false) (items : List α) :
    (s.push items).queue = s.queue ++ items := by
  simp [push, h]

@[simp] theorem closed_push (s : Source α) (items : List α) :
    (s.push items).closed = s.closed := by
  unfold push
  split <;> simp_all

@[simp] theorem pulled_push (s : Source α) (items : List α) :
    (s.push items).pulled = s.pulled := by
  unfold push
  split <;> rfl

end Source

end DerivativeLexer
