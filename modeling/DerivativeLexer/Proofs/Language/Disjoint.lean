import DerivativeLexer.Proofs.Language.Derivative

/-! # Languages without a common text

Two languages are compared by reading the same characters with both of them, for a few characters,
until one of them has no word left. Only characters are tried that the first language can begin
with, as far as they are listed in its tree. The comparison may give up, but where it answers that
the languages are apart they have no text in common. -/

namespace DerivativeLexer

open Computability

variable {p : List Char} {w : List Symbol} {c : Char} {cs : List Char}

namespace Language

/-- The characters that a word of the language can begin with, if the tree lists them. -/
def firsts? : Language → Option (List Char)
  | literal c => some [c]
  | charSet s => some s.members
  | negatedCharSet _ | anyChar => none
  | endOfInput | emptyLanguage | emptyString => some []
  | concat a b =>
    if a.acceptsEmpty then do
      let first ← a.firsts?
      let second ← b.firsts?
      pure (first ++ second)
    else a.firsts?
  | union a b => do
    let left ← a.firsts?
    let right ← b.firsts?
    pure (left ++ right)
  | star a | power a _ => a.firsts?

theorem exists_firsts {a b : Option (List Char)}
    (h : (do let first ← a; let second ← b; pure (first ++ second)) = some cs) :
    ∃ first second, a = some first ∧ b = some second ∧ cs = first ++ second := by
  obtain ⟨first, hfirst, h⟩ := Option.bind_eq_some_iff.1 h
  obtain ⟨second, hsecond, h⟩ := Option.bind_eq_some_iff.1 h
  exact ⟨first, second, hfirst, hsecond, (Option.some.inj h).symm⟩

theorem mem_of_charWords {P : Char → Prop} (h : .char c :: w ∈ charWords P) : P c := by
  obtain ⟨d, hd, heq⟩ := h
  cases (List.cons.inj heq).1
  exact hd

/-- The first character of a word of a power is that of a word of the language. -/
theorem mem_of_pow {A : FormalLanguage Symbol} (hA : ∀ w, .char c :: w ∈ A → c ∈ cs) {n : Nat}
    (h : .char c :: w ∈ A ^ n) : c ∈ cs := by
  induction n generalizing w with
  | zero => cases (Language.mem_one _).1 h
  | succ n ih =>
    rw [pow_succ', Language.mem_mul] at h
    obtain ⟨u, hu, v, hv, huv⟩ := h
    cases u with
    | nil =>
      rw [List.nil_append] at huv
      exact ih (huv ▸ hv)
    | cons x u =>
      obtain ⟨rfl, -⟩ := List.cons.inj huv
      exact hA u hu

theorem mem_of_firsts? {a : Language} (hfirsts : a.firsts? = some cs)
    (h : .char c :: w ∈ a.words) : c ∈ cs := by
  induction a generalizing cs w with
  | literal d =>
    obtain rfl := Option.some.inj hfirsts
    rw [words] at h
    have hd := mem_of_charWords h
    exact List.mem_singleton.2 hd
  | charSet s =>
    obtain rfl := Option.some.inj hfirsts
    exact mem_of_charWords h
  | negatedCharSet s => cases hfirsts
  | anyChar => cases hfirsts
  | endOfInput => cases (List.cons.inj (Set.mem_singleton_iff.1 h)).1
  | emptyLanguage => exact (Language.notMem_zero _ h).elim
  | emptyString => cases (Language.mem_one _).1 h
  | concat a b iha ihb =>
    obtain ⟨u, hu, v, hv, huv⟩ := Language.mem_mul.1 h
    rw [firsts?] at hfirsts
    cases u with
    | nil =>
      rw [if_pos ((acceptsEmpty_iff a).2 hu)] at hfirsts
      obtain ⟨first, second, -, hsecond, rfl⟩ := exists_firsts hfirsts
      rw [List.nil_append] at huv
      exact List.mem_append_right _ (ihb hsecond (huv ▸ hv))
    | cons x u =>
      obtain ⟨rfl, -⟩ := List.cons.inj huv
      split_ifs at hfirsts with hempty
      · obtain ⟨first, second, hfirst, -, rfl⟩ := exists_firsts hfirsts
        exact List.mem_append_left _ (iha hfirst hu)
      · exact iha hfirsts hu
  | union a b iha ihb =>
    obtain ⟨left, right, hleft, hright, rfl⟩ := exists_firsts hfirsts
    rcases (Language.mem_add _ _ _).1 h with h | h
    · exact List.mem_append_left _ (iha hleft h)
    · exact List.mem_append_right _ (ihb hright h)
  | star a ih =>
    have hquotient : w ∈ (star a).words.leftQuotient [.char c] := h
    rw [words, FormalLanguage.quotient_kstar, Language.mem_mul] at hquotient
    obtain ⟨u, hu, -⟩ := hquotient
    exact ih hfirsts hu
  | power a n ih => exact mem_of_pow (fun _ hw => ih hfirsts hw) h

/-- Whether the two languages are seen to be apart after so many characters. -/
def apart : Nat → Language → Language → Bool
  | 0, a, b => b.rejectsAll || a.rejectsAll
  | n + 1, a, b =>
    b.rejectsAll || a.rejectsAll || !(a.acceptsEmpty && b.acceptsEmpty) &&
      match a.firsts? with
      | some cs => cs.all fun c => apart n (a.derive (.char c)) (b.derive (.char c))
      | none => false

theorem notMem_of_rejectsAll {a : Language} (h : a.rejectsAll = true) : w ∉ a.words := by
  rw [(rejectsAll_iff a).1 h]
  exact Language.notMem_zero w

theorem mem_words_derive {a : Language} {x : Symbol} :
    w ∈ (a.derive x).words ↔ x :: w ∈ a.words := by
  rw [words_derive]
  exact Iff.rfl

theorem notMem_of_apart {n : Nat} {a b : Language} (h : apart n a b = true)
    (ha : symbols p ∈ a.words) : symbols p ∉ b.words := by
  intro hb
  induction n generalizing a b p with
  | zero =>
    rcases Bool.or_eq_true_iff.1 h with hnone | hnone
    · exact notMem_of_rejectsAll hnone hb
    · exact notMem_of_rejectsAll hnone ha
  | succ n ih =>
    rw [apart, Bool.or_eq_true, Bool.or_eq_true, Bool.and_eq_true] at h
    rcases h with (hnone | hnone) | ⟨hempty, hall⟩
    · exact notMem_of_rejectsAll hnone hb
    · exact notMem_of_rejectsAll hnone ha
    · cases p with
      | nil =>
        rw [(acceptsEmpty_iff a).2 ha, (acceptsEmpty_iff b).2 hb] at hempty
        cases hempty
      | cons c rest =>
        cases hfirsts : a.firsts? with
        | none =>
          rw [hfirsts] at hall
          cases hall
        | some cs =>
          rw [hfirsts] at hall
          have hnext := List.all_eq_true.1 hall c (mem_of_firsts? hfirsts ha)
          exact ih hnext (mem_words_derive.2 ha) (mem_words_derive.2 hb)

end Language

end DerivativeLexer
