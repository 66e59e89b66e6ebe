import DerivativeLexer.Language.Basic

/-! # A bounded memory of unions

Derivatives of a long-lived set of rules build the same unions over and over. The memory keeps
finished unions under their ordered pair of operands, the most recently used first, and drops
the least recently used one when it is full. Two counters say how often a look-up was answered
from the memory and how often the union had to be built. -/

namespace DerivativeLexer

abbrev UnionKey := Language × Language

/-- Finished unions, the most recently used first. -/
structure UnionCache where
  capacity : Nat
  capacity_pos : 0 < capacity
  entries : List (UnionKey × Language)
  hits : Nat
  misses : Nat

namespace UnionCache

def defaultCapacity : Nat := 4096

def fresh : UnionCache where
  capacity := defaultCapacity
  capacity_pos := by decide
  entries := []
  hits := 0
  misses := 0

def keys (c : UnionCache) : List UnionKey := c.entries.map (·.1)

def size (c : UnionCache) : Nat := c.entries.length

def find? (c : UnionCache) (key : UnionKey) : Option Language :=
  (c.entries.find? (·.1 == key)).map (·.2)

def without (c : UnionCache) (key : UnionKey) : List (UnionKey × Language) :=
  c.entries.filter (·.1 != key)

def refresh (c : UnionCache) (key : UnionKey) (value : Language) : UnionCache :=
  { c with entries := (key, value) :: c.without key, hits := c.hits + 1 }

/-- A new entry goes to the front; a full memory drops its last entry. -/
def store (c : UnionCache) (key : UnionKey) (value : Language) : UnionCache :=
  { c with
    entries := ((key, value) :: c.entries).take c.capacity
    misses := c.misses + 1 }

def clear (c : UnionCache) : UnionCache := { c with entries := [] }

/-- Changes the capacity; what no longer fits is dropped, the least recently used first. -/
def resize (c : UnionCache) (n : Nat) (h : 0 < n) : UnionCache :=
  { c with capacity := n, capacity_pos := h, entries := c.entries.take n }

def lookups (c : UnionCache) : Nat := c.hits + c.misses

end UnionCache

/-! ### The combinators, looked up -/

abbrev Cached := StateM UnionCache

namespace Language

def orCached (a b : Language) : Cached Language := fun c =>
  match c.find? (a, b) with
  | some value => (value, c.refresh (a, b) value)
  | none => (a.or b, c.store (a, b) (a.or b))

def optionalCached (a : Language) : Cached Language :=
  if a.onlyEmpty || a.acceptsEmpty then pure a
  else if a.rejectsAll then pure emptyString
  else emptyString.orCached a

/-- `Language.derivePower`, looked up; the derivative of `a` is looked up again for each of the
words of `a` that may read the symbol. -/
def derivePowerCached (a : Language) (d : Cached Language) : Nat → Cached Language
  | 0 => pure emptyLanguage
  | 1 => d
  | n + 2 =>
    if a.onlyEmpty || a.rejectsAll then pure emptyLanguage
    else do
      let first ← d
      let head := first.followedBy (a.replicate (n + 1))
      if a.acceptsEmpty then
        let later ← derivePowerCached a d (n + 1)
        head.orCached later
      else pure head

def deriveCached (x : Symbol) : Language → Cached Language
  | concat a b => do
    let head := (← a.deriveCached x).followedBy b
    if a.acceptsEmpty then
      let later ← b.deriveCached x
      head.orCached later
    else pure head
  | union a b => do
    let left ← a.deriveCached x
    let right ← b.deriveCached x
    left.orCached right
  | star a => do
    let head ← a.deriveCached x
    pure (head.followedBy (star a))
  | power a n => derivePowerCached a (a.deriveCached x) n
  | leaf => pure (leaf.derive x)

def deriveWordCached (a : Language) (word : List Symbol) : Cached Language :=
  word.foldlM (fun l x => l.deriveCached x) a

end Language

end DerivativeLexer
