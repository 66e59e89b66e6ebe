import DerivativeLexer.Token.Basic

/-! # Bracket balance

A piece of input is summed up by two numbers: the closing brackets that nothing in it opens, and
the opening brackets that nothing in it closes. When a piece is followed by another, the open
brackets of the first meet the unmatched closing ones of the second. The balances of pieces can
so be found apart and put together, line by line for instance. -/

namespace DerivativeLexer

/-- The unmatched brackets of a piece of input: some closing ones, then some opening ones. -/
structure Balance where
  unmatchedClose : Nat
  unmatchedOpen : Nat
deriving DecidableEq

namespace Balance

def empty : Balance := ⟨0, 0⟩

def opening : Balance := ⟨0, 1⟩

def closing : Balance := ⟨1, 0⟩

def combine (a b : Balance) : Balance :=
  if a.unmatchedOpen ≤ b.unmatchedClose then
    ⟨a.unmatchedClose + b.unmatchedClose - a.unmatchedOpen, b.unmatchedOpen⟩
  else ⟨a.unmatchedClose, b.unmatchedOpen + a.unmatchedOpen - b.unmatchedClose⟩

def sum (pieces : List Balance) : Balance := pieces.foldl combine empty

def ofChar (opener closer c : Char) : Balance :=
  if c = opener then opening else if c = closer then closing else empty

def ofText (opener closer : Char) (text : List Char) : Balance :=
  sum (text.map (ofChar opener closer))

def ofTag : TokenTag → Balance
  | .opening => opening
  | .closing => closing
  | _ => empty

/-- The balance of tokens; brackets of all shapes count alike. -/
def ofTokens (tokens : List Token) : Balance := sum (tokens.map fun t => ofTag t.tag)

def isBalanced (b : Balance) : Bool := b == empty

/-- Something is open and nothing was closed too early, so more input could balance it. -/
def isIncomplete (b : Balance) : Bool := b.unmatchedClose == 0 && 0 < b.unmatchedOpen

@[simp] theorem combine_empty (a : Balance) : a.combine empty = a := by
  obtain ⟨c, o⟩ := a
  by_cases h : o = 0
  · simp [combine, empty, h]
  · simp [combine, empty, h]

@[simp] theorem empty_combine (a : Balance) : empty.combine a = a := by
  simp [combine, empty]

theorem combine_assoc (a b c : Balance) :
    (a.combine b).combine c = a.combine (b.combine c) := by
  obtain ⟨ac, ao⟩ := a
  obtain ⟨bc, bo⟩ := b
  obtain ⟨cc, co⟩ := c
  simp only [combine]
  by_cases h1 : ao ≤ bc <;> by_cases h2 : bo ≤ cc <;> simp only [h1, h2, if_true, if_false] <;>
    (repeat' split) <;> simp only [mk.injEq, and_true, true_and] <;> omega

theorem foldl_combine (a : Balance) (pieces : List Balance) :
    pieces.foldl combine a = a.combine (sum pieces) := by
  induction pieces generalizing a with
  | nil => exact (combine_empty a).symm
  | cons b rest ih =>
    have hsum : sum (b :: rest) = b.combine (sum rest) := by
      rw [sum, List.foldl_cons, empty_combine, ih]
    rw [List.foldl_cons, ih, hsum, combine_assoc]

theorem sum_append (a b : List Balance) : sum (a ++ b) = (sum a).combine (sum b) := by
  rw [sum, List.foldl_append, foldl_combine]
  rfl

theorem sum_cons (a : Balance) (rest : List Balance) : sum (a :: rest) = a.combine (sum rest) := by
  rw [sum, List.foldl_cons, empty_combine, foldl_combine]

theorem ofTokens_append (a b : List Token) :
    ofTokens (a ++ b) = (ofTokens a).combine (ofTokens b) := by
  rw [ofTokens, List.map_append, sum_append]
  rfl

end Balance

end DerivativeLexer
