import DerivativeLexer.Language.Pattern
import Mathlib.Computability.MyhillNerode
import Mathlib.Order.CompletePartialOrder

/-! # The words of a language

Every expression tree stands for a set of words over the symbols of an input. Sets of words are
taken from the theory of formal languages, with their sum, product, powers and star, so the
meaning of a tree is fixed without reference to attributes or derivatives. The main statements
say that the three attributes decide, for every tree, what they are named for. -/

/-- A set of words. The plain name `Language` means an expression tree below. -/
abbrev FormalLanguage (α : Type) := Language α

namespace DerivativeLexer

open Computability

/-! ### Products, sums and powers that are empty or trivial -/

namespace FormalLanguage

variable {α : Type} {A B : FormalLanguage α}

theorem eq_zero_iff : A = 0 ↔ ∀ w, w ∉ A := by
  constructor
  · intro h w hw
    rw [h] at hw
    exact Language.notMem_zero w hw
  · intro h
    ext w
    exact ⟨fun hw => (h w hw).elim, fun hw => (Language.notMem_zero w hw).elim⟩

theorem eq_one_iff : A = 1 ↔ [] ∈ A ∧ ∀ w ∈ A, w = [] := by
  constructor
  · intro h
    subst h
    exact ⟨Language.nil_mem_one, fun w hw => (Language.mem_one w).1 hw⟩
  · rintro ⟨hnil, hall⟩
    ext w
    rw [Language.mem_one]
    constructor
    · exact hall w
    · intro hw
      rw [hw]
      exact hnil

theorem nil_mem_mul_iff : [] ∈ A * B ↔ [] ∈ A ∧ [] ∈ B := by
  rw [Language.mem_mul]
  constructor
  · rintro ⟨u, hu, v, hv, huv⟩
    obtain ⟨rfl, rfl⟩ := List.append_eq_nil_iff.1 huv
    exact ⟨hu, hv⟩
  · rintro ⟨hA, hB⟩
    exact ⟨[], hA, [], hB, rfl⟩

theorem mul_eq_zero_iff : A * B = 0 ↔ A = 0 ∨ B = 0 :=
  Set.image2_eq_empty_iff

theorem add_eq_zero_iff : A + B = 0 ↔ A = 0 ∧ B = 0 :=
  Set.union_empty_iff

theorem one_ne_zero : (1 : FormalLanguage α) ≠ 0 := by
  intro h
  exact eq_zero_iff.1 h [] Language.nil_mem_one

theorem mul_eq_one_iff : A * B = 1 ↔ A = 1 ∧ B = 1 := by
  constructor
  · intro h
    obtain ⟨hnil, hall⟩ := eq_one_iff.1 h
    obtain ⟨hA, hB⟩ := nil_mem_mul_iff.1 hnil
    refine ⟨eq_one_iff.2 ⟨hA, fun u hu => ?_⟩, eq_one_iff.2 ⟨hB, fun v hv => ?_⟩⟩
    · have huv := hall (u ++ []) (Language.append_mem_mul hu hB)
      rwa [List.append_nil] at huv
    · exact hall ([] ++ v) (Language.append_mem_mul hA hv)
  · rintro ⟨rfl, rfl⟩
    exact one_mul 1

theorem le_one_iff : A ≤ 1 ↔ A = 1 ∨ A = 0 := by
  rw [or_comm]
  exact Set.subset_singleton_iff_eq

theorem add_eq_one_iff :
    A + B = 1 ↔ ¬(A = 0 ∧ B = 0) ∧ (A = 1 ∨ A = 0) ∧ (B = 1 ∨ B = 0) := by
  constructor
  · intro h
    have hA : A ≤ 1 := h ▸ le_self_add
    have hB : B ≤ 1 := h ▸ le_add_self
    refine ⟨fun hz => ?_, le_one_iff.1 hA, le_one_iff.1 hB⟩
    exact one_ne_zero (h.symm.trans (add_eq_zero_iff.2 hz))
  · rintro ⟨hne, rfl | rfl, rfl | rfl⟩
    · exact Language.add_self 1
    · exact add_zero 1
    · exact zero_add 1
    · exact (hne ⟨rfl, rfl⟩).elim

theorem nil_mem_pow_succ_iff (n : Nat) : [] ∈ A ^ (n + 1) ↔ [] ∈ A := by
  induction n with
  | zero => rw [zero_add, pow_one]
  | succ n ih => rw [pow_succ', nil_mem_mul_iff, ih, and_self]

theorem pow_succ_eq_zero_iff (n : Nat) : A ^ (n + 1) = 0 ↔ A = 0 := by
  induction n with
  | zero => rw [zero_add, pow_one]
  | succ n ih => rw [pow_succ', mul_eq_zero_iff, ih, or_self]

theorem pow_succ_eq_one_iff (n : Nat) : A ^ (n + 1) = 1 ↔ A = 1 := by
  induction n with
  | zero => rw [zero_add, pow_one]
  | succ n ih => rw [pow_succ', mul_eq_one_iff, ih, and_self]

end FormalLanguage

/-! ### Sets that leave no character out -/

def allScalars : List Char :=
  (List.range' 0 0xD800 ++ List.range' 0xE000 (0x110000 - 0xE000)).map Char.ofNat

theorem length_allScalars : allScalars.length = scalarCount := by
  simp only [allScalars, scalarCount, List.length_map, List.length_append, List.length_range']

theorem mem_allScalars (c : Char) : c ∈ allScalars := by
  refine List.mem_map.2 ⟨c.toNat, ?_, Char.ofNat_toNat c⟩
  have hvalid : c.toNat.isValidChar := c.valid
  rw [List.mem_append, List.mem_range'_1, List.mem_range'_1]
  rcases hvalid with h | h
  · exact Or.inl (by omega)
  · exact Or.inr (by omega)

theorem nodup_allScalars : allScalars.Nodup := by
  refine List.Nodup.map_on ?_ ?_
  · intro m hm n hn hmn
    have valid : ∀ k ∈ List.range' 0 0xD800 ++ List.range' 0xE000 (0x110000 - 0xE000),
        k.isValidChar := by
      intro k hk
      rw [List.mem_append, List.mem_range'_1, List.mem_range'_1] at hk
      unfold Nat.isValidChar
      omega
    rw [← toNat_ofNat_of_valid (valid m hm), hmn, toNat_ofNat_of_valid (valid n hn)]
  · refine List.Nodup.append List.nodup_range' List.nodup_range' ?_
    intro n hm hn
    rw [List.mem_range'_1] at hm hn
    omega

namespace CharSet

theorem nodup_members (s : CharSet) : s.members.Nodup :=
  s.ascending.imp fun h => Char.ne_of_lt h

theorem isEmpty_iff (s : CharSet) : s.isEmpty = true ↔ ∀ c, c ∉ s := by
  rw [isEmpty, List.isEmpty_iff, List.eq_nil_iff_forall_not_mem]
  exact Iff.rfl

/-- A set has as many members as there are characters just if it leaves none out. -/
theorem scalarCount_le_size_iff (s : CharSet) : scalarCount ≤ s.size ↔ ∀ c, c ∈ s := by
  constructor
  · intro hsize c
    by_contra hc
    have hnodup : (c :: s.members).Nodup := List.nodup_cons.2 ⟨hc, s.nodup_members⟩
    have hle : (c :: s.members).length ≤ allScalars.length :=
      (hnodup.subperm fun d _ => mem_allScalars d).length_le
    rw [length_allScalars, List.length_cons] at hle
    unfold size at hsize
    omega
  · intro hall
    rw [← length_allScalars]
    exact (nodup_allScalars.subperm fun d _ => hall d).length_le

end CharSet

/-! ### Meaning of a tree -/

namespace Language

def charWords (p : Char → Prop) : FormalLanguage Symbol := {w | ∃ c, p c ∧ w = [.char c]}

def words : Language → FormalLanguage Symbol
  | literal c => charWords (· = c)
  | charSet s => charWords (· ∈ s)
  | negatedCharSet s => charWords (· ∉ s)
  | anyChar => charWords fun _ => True
  | endOfInput => {[.endMark]}
  | emptyLanguage => 0
  | emptyString => 1
  | concat a b => a.words * b.words
  | union a b => a.words + b.words
  | star a => a.words∗
  | power a n => a.words ^ n

theorem mem_charWords {p : Char → Prop} {w : List Symbol} :
    w ∈ charWords p ↔ ∃ c, p c ∧ w = [.char c] := Iff.rfl

theorem nil_notMem_charWords (p : Char → Prop) : [] ∉ charWords p := by
  rintro ⟨c, -, h⟩
  cases h

theorem charWords_ne_one (p : Char → Prop) : charWords p ≠ 1 := by
  intro h
  exact nil_notMem_charWords p (FormalLanguage.eq_one_iff.1 h).1

theorem charWords_eq_zero_iff {p : Char → Prop} : charWords p = 0 ↔ ∀ c, ¬p c := by
  rw [FormalLanguage.eq_zero_iff]
  constructor
  · intro h c hc
    exact h [.char c] ⟨c, hc, rfl⟩
  · rintro h w ⟨c, hc, -⟩
    exact h c hc

theorem charWords_ne_zero {p : Char → Prop} {c : Char} (hc : p c) : charWords p ≠ 0 := by
  intro h
  exact charWords_eq_zero_iff.1 h c hc

theorem endWord_ne_zero : ({[.endMark]} : FormalLanguage Symbol) ≠ 0 :=
  Set.singleton_ne_empty _

theorem endWord_ne_one : ({[.endMark]} : FormalLanguage Symbol) ≠ 1 := by
  intro h
  have hmem := (FormalLanguage.eq_one_iff.1 h).2 [.endMark] (Set.mem_singleton _)
  cases hmem

/-! ### The attributes are exact -/

theorem acceptsEmpty_iff (a : Language) : a.acceptsEmpty = true ↔ [] ∈ a.words := by
  induction a with
  | literal c => simp [acceptsEmpty, words, nil_notMem_charWords]
  | charSet s => simp [acceptsEmpty, words, nil_notMem_charWords]
  | negatedCharSet s => simp [acceptsEmpty, words, nil_notMem_charWords]
  | anyChar => simp [acceptsEmpty, words, nil_notMem_charWords]
  | endOfInput =>
    have h : [] ∉ endOfInput.words := fun h => nomatch Set.mem_singleton_iff.1 h
    simp [acceptsEmpty, h]
  | emptyLanguage => simp [acceptsEmpty, words]
  | emptyString => simp [acceptsEmpty, words]
  | concat a b iha ihb =>
    rw [acceptsEmpty, words, Bool.and_eq_true, iha, ihb, FormalLanguage.nil_mem_mul_iff]
  | union a b iha ihb =>
    rw [acceptsEmpty, words, Bool.or_eq_true, iha, ihb, Language.mem_add]
  | star a _ => simp [acceptsEmpty, words, Language.nil_mem_kstar]
  | power a n ih =>
    cases n with
    | zero => simp [acceptsEmpty, words]
    | succ n => rw [acceptsEmpty, words, ih, FormalLanguage.nil_mem_pow_succ_iff]

theorem rejectsAll_iff (a : Language) : a.rejectsAll = true ↔ a.words = 0 := by
  induction a with
  | literal c =>
    have h : charWords (· = c) ≠ 0 := charWords_ne_zero rfl
    simp [rejectsAll, words, h]
  | charSet s => rw [rejectsAll, words, charWords_eq_zero_iff, CharSet.isEmpty_iff]
  | negatedCharSet s =>
    rw [rejectsAll, words, charWords_eq_zero_iff, decide_eq_true_iff,
      CharSet.scalarCount_le_size_iff]
    simp only [not_not]
  | anyChar =>
    have h : (charWords fun _ => True) ≠ 0 := fun h => charWords_eq_zero_iff.1 h 'a' trivial
    simp [rejectsAll, words, h]
  | endOfInput => simp [rejectsAll, words, endWord_ne_zero]
  | emptyLanguage => simp [rejectsAll, words]
  | emptyString => simp [rejectsAll, words, FormalLanguage.one_ne_zero]
  | concat a b iha ihb =>
    rw [rejectsAll, words, Bool.or_eq_true, iha, ihb, FormalLanguage.mul_eq_zero_iff]
  | union a b iha ihb =>
    rw [rejectsAll, words, Bool.and_eq_true, iha, ihb, FormalLanguage.add_eq_zero_iff]
  | star a _ =>
    have h : (star a).words ≠ 0 := fun h =>
      FormalLanguage.eq_zero_iff.1 h [] (Language.nil_mem_kstar _)
    simp [rejectsAll, h]
  | power a n ih =>
    cases n with
    | zero => simp [rejectsAll, words, FormalLanguage.one_ne_zero]
    | succ n => rw [rejectsAll, words, ih, FormalLanguage.pow_succ_eq_zero_iff]

theorem onlyEmpty_iff (a : Language) : a.onlyEmpty = true ↔ a.words = 1 := by
  induction a with
  | literal c => simp [onlyEmpty, words, charWords_ne_one]
  | charSet s => simp [onlyEmpty, words, charWords_ne_one]
  | negatedCharSet s => simp [onlyEmpty, words, charWords_ne_one]
  | anyChar => simp [onlyEmpty, words, charWords_ne_one]
  | endOfInput => simp [onlyEmpty, words, endWord_ne_one]
  | emptyLanguage => simp [onlyEmpty, words, FormalLanguage.one_ne_zero.symm]
  | emptyString => simp [onlyEmpty, words]
  | concat a b iha ihb =>
    rw [words, FormalLanguage.mul_eq_one_iff, ← iha, ← ihb]
    constructor
    · intro h
      simp only [onlyEmpty, Bool.and_eq_true] at h
      exact ⟨h.1.2, h.2⟩
    · -- a product that is trivial has no factor that is empty
      rintro ⟨ha, hb⟩
      have hne : (concat a b).words ≠ 0 := by
        rw [words, iha.1 ha, ihb.1 hb, one_mul]
        exact FormalLanguage.one_ne_zero
      have hrej := mt (rejectsAll_iff (concat a b)).1 hne
      rw [rejectsAll, Bool.not_eq_true] at hrej
      simp [onlyEmpty, ha, hb, hrej]
  | union a b iha ihb =>
    rw [words, FormalLanguage.add_eq_one_iff, ← iha, ← ihb, ← rejectsAll_iff, ← rejectsAll_iff]
    simp only [onlyEmpty, Bool.and_eq_true, Bool.not_eq_true', Bool.or_eq_true,
      Bool.and_eq_false_imp, and_assoc]
    simp
  | star a ih =>
    rw [onlyEmpty, words, kstar_eq_one, FormalLanguage.le_one_iff, Bool.or_eq_true, ih,
      rejectsAll_iff]
  | power a n ih =>
    cases n with
    | zero => simp [onlyEmpty, words]
    | succ n => rw [onlyEmpty, words, ih, FormalLanguage.pow_succ_eq_one_iff]

end Language

end DerivativeLexer
