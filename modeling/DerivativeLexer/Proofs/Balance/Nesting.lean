import DerivativeLexer.Proofs.Balance
import Mathlib.Algebra.Order.Group.Unbundled.Int
import Mathlib.Data.List.Induction
import Mathlib.Order.Bounds.Basic
import Mathlib.Order.MinMax

/-! # What a balance counts

A balance is put together bracket by bracket, but it says something about its text as a whole. The
closing brackets that nothing opens are as many as some beginning of the text closes more often
than it opens, and no beginning exceeds that. A text is balanced if its brackets are nested, each
with its partner, and incomplete if it is not balanced yet, but can go on so that it is. -/

namespace DerivativeLexer

namespace Balance

variable {opener closer c : Char} {text word : List Char} {b : Balance} {n : Nat}

/-- How many more brackets are closed than opened. -/
def surplus (opener closer : Char) (text : List Char) : Int :=
  (text.count closer : Int) - text.count opener

/-- The brackets of a text, in their order. -/
def brackets (opener closer : Char) (text : List Char) : List Char :=
  text.filter fun c => c = opener || c = closer

/-- Brackets that all have their partner: a pair with such brackets inside, and such brackets
behind it. -/
inductive Nested (opener closer : Char) : List Char → Prop
  | nil : Nested opener closer []
  | pair {inner behind : List Char} (hinner : Nested opener closer inner)
      (hbehind : Nested opener closer behind) :
      Nested opener closer (opener :: (inner ++ closer :: behind))

/-- Brackets that all have their partner, but for so many opening ones. -/
inductive Pending (opener closer : Char) : Nat → List Char → Prop
  | nested {word : List Char} (h : Nested opener closer word) : Pending opener closer 0 word
  | opened {n : Nat} {before word : List Char} (hbefore : Pending opener closer n before)
      (h : Nested opener closer word) : Pending opener closer (n + 1) (before ++ opener :: word)

/-! ### One bracket more -/

theorem ofText_append (opener closer : Char) (text rest : List Char) :
    ofText opener closer (text ++ rest) =
      (ofText opener closer text).combine (ofText opener closer rest) :=
  sum_map_append _ text rest

theorem ofText_singleton (opener closer c : Char) :
    ofText opener closer [c] = ofChar opener closer c :=
  empty_combine _

theorem ofText_concat (opener closer : Char) (text : List Char) (c : Char) :
    ofText opener closer (text ++ [c]) =
      (ofText opener closer text).combine (ofChar opener closer c) := by
  rw [ofText_append, ofText_singleton]

theorem surplus_concat (opener closer : Char) (text : List Char) (c : Char) :
    surplus opener closer (text ++ [c]) =
      surplus opener closer text + surplus opener closer [c] := by
  unfold surplus
  rw [List.count_append, List.count_append]
  omega

/-- What is too much in one of two pieces is set off against what is open in the other; only what
is closed too early in the first remains. -/
theorem combine_close (a b : Balance) : ((a.combine b).unmatchedClose : Int) =
    max (a.unmatchedClose : Int) (a.unmatchedClose - a.unmatchedOpen + b.unmatchedClose) := by
  obtain ⟨hclose, -⟩ := combine_cancels a b
  omega

theorem combine_surplus (a b : Balance) :
    ((a.combine b).unmatchedClose : Int) - (a.combine b).unmatchedOpen =
      (a.unmatchedClose - a.unmatchedOpen : Int) + (b.unmatchedClose - b.unmatchedOpen) := by
  obtain ⟨hclose, hopen⟩ := combine_cancels a b
  omega

theorem close_le_combine (a b : Balance) : a.unmatchedClose ≤ (a.combine b).unmatchedClose := by
  have h := combine_close a b
  omega

theorem ofChar_close (hne : opener ≠ closer) (c : Char) :
    ((ofChar opener closer c).unmatchedClose : Int) = max 0 (surplus opener closer [c]) ∧
      ((ofChar opener closer c).unmatchedClose : Int) - (ofChar opener closer c).unmatchedOpen =
        surplus opener closer [c] := by
  unfold ofChar surplus
  rw [List.count_singleton, List.count_singleton]
  by_cases hopener : c = opener
  · subst hopener
    simp [opening, hne]
  · by_cases hcloser : c = closer
    · subst hcloser
      simp [closing, hopener]
    · simp [empty, hopener, hcloser]

/-! ### Counting over beginnings -/

theorem ofText_surplus (hne : opener ≠ closer) (text : List Char) :
    ((ofText opener closer text).unmatchedClose : Int) - (ofText opener closer text).unmatchedOpen =
      surplus opener closer text := by
  induction text using List.reverseRecOn with
  | nil => rfl
  | append_singleton text c ih =>
    rw [ofText_concat, combine_surplus, ih, (ofChar_close hne c).2, surplus_concat]

theorem close_concat (hne : opener ≠ closer) (text : List Char) (c : Char) :
    ((ofText opener closer (text ++ [c])).unmatchedClose : Int) =
      max ((ofText opener closer text).unmatchedClose : Int)
        (surplus opener closer (text ++ [c])) := by
  have htext := ofText_surplus hne text
  rw [ofText_concat, combine_close, (ofChar_close hne c).1, surplus_concat]
  omega

/-- The closing brackets that nothing opens are the greatest surplus of a beginning. -/
theorem isGreatest_close (hne : opener ≠ closer) (text : List Char) :
    IsGreatest (surplus opener closer '' {p | p <+: text})
      ((ofText opener closer text).unmatchedClose : Int) := by
  induction text using List.reverseRecOn with
  | nil =>
    refine ⟨⟨[], List.nil_prefix, rfl⟩, ?_⟩
    rintro d ⟨p, hp, rfl⟩
    obtain rfl := List.prefix_nil.1 hp
    exact Int.le_refl 0
  | append_singleton text c ih =>
    obtain ⟨⟨p, hp, hreached⟩, hwithin⟩ := ih
    rw [close_concat hne]
    constructor
    · rcases max_choice ((ofText opener closer text).unmatchedClose : Int)
        (surplus opener closer (text ++ [c])) with hmax | hmax
      · exact ⟨p, hp.trans (List.prefix_append _ _), hreached.trans hmax.symm⟩
      · exact ⟨text ++ [c], List.prefix_refl _, hmax.symm⟩
    · rintro d ⟨q, hq, rfl⟩
      rcases List.prefix_concat_iff.1 hq with rfl | hq
      · exact le_max_right _ _
      · exact le_max_of_le_left (hwithin ⟨q, hq, rfl⟩)

/-! ### Partners -/

theorem Nested.append {w v : List Char} (hw : Nested opener closer w)
    (hv : Nested opener closer v) : Nested opener closer (w ++ v) := by
  induction hw with
  | nil => exact hv
  | pair hinner hbehind ihinner ihbehind =>
    rw [List.cons_append, List.append_assoc, List.cons_append]
    exact .pair hinner ihbehind

theorem Pending.append {w v : List Char} (hw : Pending opener closer n w)
    (hv : Nested opener closer v) : Pending opener closer n (w ++ v) := by
  cases hw with
  | nested h => exact .nested (h.append hv)
  | opened hbefore h =>
    rw [List.append_assoc, List.cons_append]
    exact .opened hbefore (h.append hv)

theorem Pending.concat_opener (h : Pending opener closer n word) :
    Pending opener closer (n + 1) (word ++ [opener]) :=
  .opened h .nil

/-- A closing bracket is the partner of the last one that is open. -/
theorem Pending.concat_closer (h : Pending opener closer (n + 1) word) :
    Pending opener closer n (word ++ [closer]) := by
  cases h with
  | opened hbefore h =>
    rw [List.append_assoc, List.cons_append]
    exact hbefore.append (.pair h .nil)

theorem brackets_append (opener closer : Char) (text rest : List Char) :
    brackets opener closer (text ++ rest) =
      brackets opener closer text ++ brackets opener closer rest :=
  List.filter_append ..

theorem brackets_singleton (h : c = opener ∨ c = closer) : brackets opener closer [c] = [c] :=
  List.filter_cons_of_pos (by simpa using h)

theorem brackets_other (hopener : c ≠ opener) (hcloser : c ≠ closer) :
    brackets opener closer [c] = [] :=
  List.filter_cons_of_neg (by simp [hopener, hcloser])

/-- One character more, if it does not close too early either. -/
theorem Pending.concat (hpending : Pending opener closer n word)
    (h : (combine ⟨0, n⟩ (ofChar opener closer c)).unmatchedClose = 0) :
    Pending opener closer (combine ⟨0, n⟩ (ofChar opener closer c)).unmatchedOpen
      (word ++ brackets opener closer [c]) := by
  by_cases hopener : c = opener
  · have hcombine : combine ⟨0, n⟩ opening = ⟨0, n + 1⟩ := by simp [combine, opening, Nat.add_comm]
    rw [brackets_singleton (.inl hopener), ofChar, if_pos hopener, hcombine, hopener]
    exact hpending.concat_opener
  · by_cases hcloser : c = closer
    · rw [brackets_singleton (.inr hcloser)]
      rw [ofChar, if_neg hopener, if_pos hcloser] at h ⊢
      cases n with
      | zero => cases h
      | succ m =>
        have hcombine : combine ⟨0, m + 1⟩ closing = ⟨0, m⟩ := by
          cases m with
          | zero => rfl
          | succ m => simp [combine, closing]
        rw [hcombine, hcloser]
        exact hpending.concat_closer
    · rw [brackets_other hopener hcloser, ofChar, if_neg hopener, if_neg hcloser, combine_empty,
        List.append_nil]
      exact hpending

/-- As long as nothing is closed too early, the brackets have their partners, but for those that the
balance counts as open. -/
theorem pending_brackets (h : (ofText opener closer text).unmatchedClose = 0) :
    Pending opener closer (ofText opener closer text).unmatchedOpen
      (brackets opener closer text) := by
  induction text using List.reverseRecOn with
  | nil => exact .nested .nil
  | append_singleton text c ih =>
    rw [ofText_concat] at h
    have hbefore : (ofText opener closer text).unmatchedClose = 0 :=
      Nat.le_zero.1 (h ▸ close_le_combine _ _)
    have htext : ofText opener closer text = ⟨0, (ofText opener closer text).unmatchedOpen⟩ := by
      rw [← hbefore]
    rw [htext] at h
    rw [ofText_concat, htext, brackets_append]
    exact (ih hbefore).concat h

theorem ofText_nested (hne : opener ≠ closer) (h : Nested opener closer word) :
    ofText opener closer word = empty := by
  induction h with
  | nil => rfl
  | @pair inner behind hinner hbehind ihinner ihbehind =>
    have hpair : opener :: (inner ++ closer :: behind) =
        [opener] ++ (inner ++ ([closer] ++ behind)) := rfl
    rw [hpair, ofText_append, ofText_append, ofText_append, ihinner, ihbehind, ofText_singleton,
      ofText_singleton, ofChar, ofChar, if_pos rfl, if_neg hne.symm, if_pos rfl]
    rfl

/-- Only the brackets of a text matter to its balance. -/
theorem ofText_brackets (opener closer : Char) (text : List Char) :
    ofText opener closer (brackets opener closer text) = ofText opener closer text := by
  induction text using List.reverseRecOn with
  | nil => rfl
  | append_singleton text c ih =>
    rw [brackets_append, ofText_append, ih, ofText_append]
    by_cases h : c = opener ∨ c = closer
    · rw [brackets_singleton h]
    · obtain ⟨hopener, hcloser⟩ := not_or.1 h
      rw [brackets_other hopener hcloser, ofText_singleton, ofChar, if_neg hopener, if_neg hcloser]
      rfl

theorem isBalanced_iff : b.isBalanced = true ↔ b = empty := beq_iff_eq

theorem isIncomplete_iff :
    b.isIncomplete = true ↔ b.unmatchedClose = 0 ∧ 0 < b.unmatchedOpen := by
  rw [isIncomplete, Bool.and_eq_true, beq_iff_eq, decide_eq_true_iff]

theorem isBalanced_iff_nested (hne : opener ≠ closer) (text : List Char) :
    (ofText opener closer text).isBalanced = true ↔
      Nested opener closer (brackets opener closer text) := by
  rw [isBalanced_iff]
  constructor
  · intro h
    have hpending := pending_brackets (congrArg unmatchedClose h)
    rw [h] at hpending
    cases hpending with
    | nested hnested => exact hnested
  · intro h
    rw [← ofText_brackets, ofText_nested hne h]

/-! ### Going on -/

theorem ofText_replicate_closer (hne : opener ≠ closer) (n : Nat) :
    ofText opener closer (List.replicate n closer) = ⟨n, 0⟩ := by
  induction n with
  | zero => rfl
  | succ n ih =>
    rw [List.replicate_succ', ofText_concat, ih, ofChar, if_neg hne.symm, if_pos rfl]
    rfl

/-- What is open can be closed, but what was closed too early stays so. -/
theorem exists_balanced_append_iff (hne : opener ≠ closer) (text : List Char) :
    (∃ rest, (ofText opener closer (text ++ rest)).isBalanced = true) ↔
      (ofText opener closer text).unmatchedClose = 0 := by
  constructor
  · rintro ⟨rest, hrest⟩
    rw [isBalanced_iff, ofText_append] at hrest
    have hle := close_le_combine (ofText opener closer text) (ofText opener closer rest)
    rw [hrest] at hle
    exact Nat.le_zero.1 hle
  · intro h
    refine ⟨List.replicate (ofText opener closer text).unmatchedOpen closer, ?_⟩
    rw [isBalanced_iff, ofText_append, ofText_replicate_closer hne, combine,
      if_pos (Nat.le_refl _), h, Nat.zero_add, Nat.sub_self]
    rfl

theorem isIncomplete_iff_exists (hne : opener ≠ closer) (text : List Char) :
    (ofText opener closer text).isIncomplete = true ↔
      (ofText opener closer text).isBalanced = false ∧
        ∃ rest, (ofText opener closer (text ++ rest)).isBalanced = true := by
  rw [exists_balanced_append_iff hne, isIncomplete_iff, Bool.eq_false_iff, Ne, isBalanced_iff]
  obtain ⟨close, opened⟩ := ofText opener closer text
  simp only [empty, mk.injEq]
  omega

/-- For any two different brackets the balance of a text counts what it says: the greatest surplus
of closing brackets in a beginning, and what is open besides; it is balanced just if the brackets
are nested, and incomplete just if it is not balanced but some continuation is. -/
theorem ofText_counts (hne : opener ≠ closer) (text : List Char) :
    IsGreatest (surplus opener closer '' {p | p <+: text})
        ((ofText opener closer text).unmatchedClose : Int) ∧
      ((ofText opener closer text).unmatchedOpen : Int) =
        (ofText opener closer text).unmatchedClose + text.count opener - text.count closer ∧
      ((ofText opener closer text).isBalanced = true ↔
        Nested opener closer (brackets opener closer text)) ∧
      ((ofText opener closer text).isIncomplete = true ↔
        (ofText opener closer text).isBalanced = false ∧
          ∃ rest, (ofText opener closer (text ++ rest)).isBalanced = true) := by
  refine ⟨isGreatest_close hne text, ?_, isBalanced_iff_nested hne text,
    isIncomplete_iff_exists hne text⟩
  have hsurplus := ofText_surplus hne text
  unfold surplus at hsurplus
  omega

/-- A closing bracket in front of others that nothing closes, and an incomplete text. -/
theorem ofText_counts_sample :
    '(' ≠ ')' ∧ IsGreatest (surplus '(' ')' '' {p | p <+: ")a((b)(".toList}) 1 ∧
      (ofText '(' ')' ")a((b)(".toList).unmatchedOpen = 2 ∧
      ¬Nested '(' ')' (brackets '(' ')' "(a)(".toList) ∧
      ∃ rest, (ofText '(' ')' ("(a)(".toList ++ rest)).isBalanced = true := by
  have hne : '(' ≠ ')' := by decide
  obtain ⟨hgreatest, hopen, -, -⟩ := ofText_counts hne ")a((b)(".toList
  obtain ⟨-, -, hnested, hincomplete⟩ := ofText_counts hne "(a)(".toList
  refine ⟨hne, hgreatest, ?_, ?_, ?_⟩
  · exact Int.ofNat.inj hopen
  · exact mt hnested.2 (by decide)
  · exact (hincomplete.1 (by decide)).2

end Balance

end DerivativeLexer
