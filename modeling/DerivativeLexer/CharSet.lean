/-! # Sets of characters

A set of characters is kept as its members in strictly ascending order. Two sets with the same
members are therefore the same value, and a set is listed without sorting it again. The module
builds sets from a text and from an interval of code points; the interval steps over the code
points that are no characters. -/

namespace DerivativeLexer

def scalar? (n : Nat) : Option Char :=
  if n.isValidChar then some (Char.ofNat n) else none

theorem toNat_ofNat_of_valid {n : Nat} (h : n.isValidChar) : (Char.ofNat n).toNat = n := by
  unfold Char.ofNat
  rw [dif_pos h]
  rfl

theorem toNat_of_scalar? {n : Nat} {c : Char} (h : scalar? n = some c) : c.toNat = n := by
  unfold scalar? at h
  by_cases hn : n.isValidChar
  · rw [if_pos hn] at h
    rw [← Option.some.inj h]
    exact toNat_ofNat_of_valid hn
  · rw [if_neg hn] at h
    cases h

theorem scalar?_toNat (c : Char) : scalar? c.toNat = some c := by
  have h : c.toNat.isValidChar := c.valid
  unfold scalar?
  rw [if_pos h, Char.ofNat_toNat]

def scalarCount : Nat := 0x110000 - 0x800

/-! ### Ascending lists -/

/-- Puts a character into its place; a character already listed is not listed twice. -/
def insertAscending (c : Char) : List Char → List Char
  | [] => [c]
  | d :: rest =>
    if c < d then c :: d :: rest
    else if c = d then d :: rest
    else d :: insertAscending c rest

theorem mem_insertAscending {c d : Char} {l : List Char} :
    d ∈ insertAscending c l ↔ d = c ∨ d ∈ l := by
  induction l with
  | nil => simp [insertAscending]
  | cons e rest ih =>
    unfold insertAscending
    split
    · simp
    · split
      · rename_i h; subst h; simp
      · simp only [List.mem_cons, ih]
        constructor
        · rintro (h | h | h) <;> simp [h]
        · rintro (h | h | h) <;> simp [h]

theorem insertAscending_ascending (c : Char) {l : List Char} (h : l.Pairwise (· < ·)) :
    (insertAscending c l).Pairwise (· < ·) := by
  induction l with
  | nil => simp [insertAscending]
  | cons e rest ih =>
    have hrest := List.pairwise_cons.1 h
    unfold insertAscending
    split
    · rename_i hlt
      refine List.pairwise_cons.2 ⟨fun d hd => ?_, h⟩
      rcases List.mem_cons.1 hd with rfl | hd
      · exact hlt
      · exact Char.lt_trans hlt (hrest.1 d hd)
    · split
      · exact h
      · rename_i hlt hne
        refine List.pairwise_cons.2 ⟨fun d hd => ?_, ih hrest.2⟩
        rcases mem_insertAscending.1 hd with rfl | hd
        · exact Decidable.byContradiction fun h' =>
            hne (Char.le_antisymm (Char.not_lt.1 h') (Char.not_lt.1 hlt))
        · exact hrest.1 d hd

/-! ### Sets -/

/-- A finite set of characters, listed in strictly ascending order. -/
structure CharSet where
  members : List Char
  ascending : members.Pairwise (· < ·)
deriving DecidableEq

namespace CharSet

instance : Membership Char CharSet := ⟨fun s c => c ∈ s.members⟩

instance (c : Char) (s : CharSet) : Decidable (c ∈ s) :=
  inferInstanceAs (Decidable (c ∈ s.members))

def empty : CharSet := ⟨[], .nil⟩

def insert (c : Char) (s : CharSet) : CharSet :=
  ⟨insertAscending c s.members, insertAscending_ascending c s.ascending⟩

def ofList (cs : List Char) : CharSet := cs.foldl (fun s c => s.insert c) empty

def interval (lo hi : Char) : CharSet where
  members := (List.range' lo.toNat (hi.toNat + 1 - lo.toNat)).filterMap scalar?
  ascending := by
    refine List.Pairwise.filterMap scalar? ?_ (List.pairwise_lt_range' 1)
    intro m n hmn c hc d hd
    rw [← toNat_of_scalar? hc, ← toNat_of_scalar? hd] at hmn
    exact hmn

def size (s : CharSet) : Nat := s.members.length

def isEmpty (s : CharSet) : Bool := s.members.isEmpty

@[simp] theorem mem_members {c : Char} {s : CharSet} : c ∈ s.members ↔ c ∈ s := Iff.rfl

theorem not_mem_empty (c : Char) : c ∉ empty := fun h => nomatch (h : c ∈ ([] : List Char))

theorem mem_insert {c d : Char} {s : CharSet} : d ∈ s.insert c ↔ d = c ∨ d ∈ s :=
  mem_insertAscending

theorem mem_foldl_insert {d : Char} (cs : List Char) (s : CharSet) :
    d ∈ cs.foldl (fun s c => s.insert c) s ↔ d ∈ s ∨ d ∈ cs := by
  induction cs generalizing s with
  | nil => simp
  | cons c rest ih =>
    rw [List.foldl_cons, ih, mem_insert, List.mem_cons]
    constructor
    · rintro ((h | h) | h) <;> simp [h]
    · rintro (h | h | h) <;> simp [h]

theorem mem_ofList {d : Char} {cs : List Char} : d ∈ ofList cs ↔ d ∈ cs := by
  rw [ofList, mem_foldl_insert]
  exact ⟨fun h => h.resolve_left (not_mem_empty d), Or.inr⟩

theorem mem_interval {c lo hi : Char} :
    c ∈ interval lo hi ↔ lo.toNat ≤ c.toNat ∧ c.toNat ≤ hi.toNat := by
  change c ∈ (List.range' lo.toNat (hi.toNat + 1 - lo.toNat)).filterMap scalar? ↔ _
  rw [List.mem_filterMap]
  constructor
  · rintro ⟨n, hn, hc⟩
    have := toNat_of_scalar? hc
    obtain ⟨i, hi, rfl⟩ := List.mem_range'.1 hn
    omega
  · rintro ⟨hlo, hhi⟩
    exact ⟨c.toNat, List.mem_range'.2 ⟨c.toNat - lo.toNat, by omega, by omega⟩, scalar?_toNat c⟩

end CharSet

end DerivativeLexer
