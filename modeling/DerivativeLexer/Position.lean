/-! # Positions

A position counts the characters before it, and tells the line and the column a reader would
look at. Offsets start at 0, lines and columns at 1; a line feed ends a line. -/

namespace DerivativeLexer

structure Position where
  offset : Nat
  line : Nat
  column : Nat
deriving DecidableEq

namespace Position

def start : Position := ⟨0, 1, 1⟩

def startingAt (offset : Nat) : Position := { start with offset }

def advance (p : Position) (c : Char) : Position :=
  if c = '\n' then ⟨p.offset + 1, p.line + 1, 1⟩
  else { p with offset := p.offset + 1, column := p.column + 1 }

def advanceBy (p : Position) (text : List Char) : Position := text.foldl advance p

/-- By offset, then line, then column. -/
def order (p q : Position) : Ordering :=
  (compare p.offset q.offset).then <| (compare p.line q.line).then <| compare p.column q.column

@[simp] theorem offset_advance (p : Position) (c : Char) :
    (p.advance c).offset = p.offset + 1 := by
  unfold advance
  split <;> rfl

@[simp] theorem advanceBy_nil (p : Position) : p.advanceBy [] = p := rfl

@[simp] theorem advanceBy_cons (p : Position) (c : Char) (text : List Char) :
    p.advanceBy (c :: text) = (p.advance c).advanceBy text := rfl

theorem advanceBy_append (p : Position) (a b : List Char) :
    p.advanceBy (a ++ b) = (p.advanceBy a).advanceBy b :=
  List.foldl_append

@[simp] theorem offset_advanceBy (p : Position) (text : List Char) :
    (p.advanceBy text).offset = p.offset + text.length := by
  induction text generalizing p with
  | nil => rfl
  | cons c rest ih => simp only [advanceBy_cons, ih, offset_advance, List.length_cons]; omega

end Position

/-- The characters from `start` up to, but not including, `stop`. -/
structure Span where
  start : Position
  stop : Position
deriving DecidableEq

namespace Span

def length (s : Span) : Nat := s.stop.offset - s.start.offset

def isEmpty (s : Span) : Bool := s.length == 0

end Span

end DerivativeLexer
