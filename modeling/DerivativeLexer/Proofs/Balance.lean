import DerivativeLexer.Balance

/-! # Balances of pieces

Balances are a monoid: what is put together of three pieces does not depend on which two are put
together first, and the empty balance changes nothing. The balance of a text and that of a list of
tokens are homomorphisms into it. So however a whole is cut into pieces, and in whatever order
their balances are put together, from the left, from the right or in chunks, the result is the
balance of the whole. -/

namespace DerivativeLexer

variable {α : Type}

/-- A whole that is cut into pieces, and the order in which they are put together again. -/
inductive Pieces (α : Type) where
  | nothing
  | piece (items : List α)
  | join (first second : Pieces α)

namespace Pieces

def whole : Pieces α → List α
  | nothing => []
  | piece items => items
  | join first second => first.whole ++ second.whole

/-- The balances of the pieces, put together in the same order. -/
def gather (balance : List α → Balance) : Pieces α → Balance
  | nothing => .empty
  | piece items => balance items
  | join first second => (first.gather balance).combine (second.gather balance)

end Pieces

namespace Balance

/-! ### Counting without negative numbers -/

def difference? (whole part : Nat) : Option Nat :=
  if part ≤ whole then some (whole - part) else none

theorem difference?_eq {whole part : Nat} (h : part ≤ whole) :
    difference? whole part = some (whole - part) := if_pos h

/-- The combination of two balances, if no difference in it is negative. -/
def combine? (a b : Balance) : Option Balance :=
  if a.unmatchedOpen ≤ b.unmatchedClose then do
    let close ← difference? (a.unmatchedClose + b.unmatchedClose) a.unmatchedOpen
    pure ⟨close, b.unmatchedOpen⟩
  else do
    let opened ← difference? (b.unmatchedOpen + a.unmatchedOpen) b.unmatchedClose
    pure ⟨a.unmatchedClose, opened⟩

theorem combine?_eq (a b : Balance) : a.combine? b = some (a.combine b) := by
  unfold combine? combine
  by_cases h : a.unmatchedOpen ≤ b.unmatchedClose
  · have hclose : a.unmatchedOpen ≤ a.unmatchedClose + b.unmatchedClose :=
      Nat.le_trans h (Nat.le_add_left _ _)
    rw [if_pos h, if_pos h, difference?_eq hclose]
    rfl
  · have hopen : b.unmatchedClose ≤ b.unmatchedOpen + a.unmatchedOpen :=
      Nat.le_trans (Nat.le_of_not_le h) (Nat.le_add_left _ _)
    rw [if_neg h, if_neg h, difference?_eq hopen]
    rfl

/-- An open bracket of the first piece and an unmatched closing one of the second cancel each
other, as long as there are both. -/
theorem combine_cancels (a b : Balance) :
    (a.combine b).unmatchedClose + min a.unmatchedOpen b.unmatchedClose =
        a.unmatchedClose + b.unmatchedClose ∧
      (a.combine b).unmatchedOpen + min a.unmatchedOpen b.unmatchedClose =
        a.unmatchedOpen + b.unmatchedOpen := by
  unfold combine
  by_cases h : a.unmatchedOpen ≤ b.unmatchedClose
  · rw [if_pos h, Nat.min_eq_left h]
    dsimp only
    omega
  · rw [if_neg h, Nat.min_eq_right (Nat.le_of_not_le h)]
    dsimp only
    omega

/-! ### Homomorphisms -/

/-- A balance that is read item by item is put together from those of any two parts. -/
theorem sum_map_append (f : α → Balance) (first second : List α) :
    sum ((first ++ second).map f) = (sum (first.map f)).combine (sum (second.map f)) := by
  rw [List.map_append, sum_append]

theorem sum_map_whole (f : α → Balance) (pieces : Pieces α) :
    sum (pieces.whole.map f) = pieces.gather fun items => sum (items.map f) := by
  induction pieces with
  | nothing => rfl
  | piece items => rfl
  | join first second ihfirst ihsecond =>
    rw [Pieces.whole, sum_map_append, ihfirst, ihsecond, Pieces.gather]

/-- Balances are a monoid, the balance of a text for any pair of brackets and that of a list of
tokens are put together from their pieces in any order, and no difference in a combination is
negative: brackets that are open in the first piece and closed in the second cancel each other. -/
theorem balance_of_pieces :
    (∀ a b c : Balance, (a.combine b).combine c = a.combine (b.combine c)) ∧
      (∀ a : Balance, empty.combine a = a ∧ a.combine empty = a) ∧
      (∀ (opener closer : Char) (pieces : Pieces Char),
        ofText opener closer pieces.whole = pieces.gather (ofText opener closer)) ∧
      (∀ pieces : Pieces Token, ofTokens pieces.whole = pieces.gather ofTokens) ∧
      ∀ a b : Balance, a.combine? b = some (a.combine b) ∧
        (a.combine b).unmatchedClose + min a.unmatchedOpen b.unmatchedClose =
          a.unmatchedClose + b.unmatchedClose ∧
        (a.combine b).unmatchedOpen + min a.unmatchedOpen b.unmatchedClose =
          a.unmatchedOpen + b.unmatchedOpen := by
  refine ⟨combine_assoc, fun a => ⟨empty_combine a, combine_empty a⟩, ?_, ?_, ?_⟩
  · intro opener closer pieces
    exact sum_map_whole (ofChar opener closer) pieces
  · intro pieces
    exact sum_map_whole (fun t => ofTag t.tag) pieces
  · intro a b
    exact ⟨combine?_eq a b, combine_cancels a b⟩

/-- Three pieces of a text, the last two put together first. -/
example : (Pieces.join (.piece ")(".toList) (.join (.piece "((".toList)
    (.piece ")".toList))).gather (ofText '(' ')') = ⟨1, 2⟩ := by decide

end Balance

end DerivativeLexer
