import DerivativeLexer.Proofs.Language.Words

/-! # Combinators and derivatives on words

The combinators leave out what their attributes show to be of no account, and derivatives are
built from the combinators. Here each combinator is shown to stand for the operation on sets of
words that it is named for, on every tree, and the derivative of a tree for the left quotient of
its words. From there on no proof looks into a combinator again. -/

namespace DerivativeLexer

open Computability

/-! ### Left quotients by one symbol -/

namespace FormalLanguage

variable {α : Type} {A B : FormalLanguage α}

theorem quotient_zero (x : α) : (0 : FormalLanguage α).leftQuotient [x] = 0 := by
  ext w
  rw [Language.mem_leftQuotient]
  exact ⟨fun h => (Language.notMem_zero _ h).elim, fun h => (Language.notMem_zero _ h).elim⟩

theorem quotient_one (x : α) : (1 : FormalLanguage α).leftQuotient [x] = 0 := by
  rw [eq_zero_iff]
  intro w hw
  rw [Language.mem_leftQuotient, Language.mem_one] at hw
  cases hw

theorem quotient_add (x : α) :
    (A + B).leftQuotient [x] = A.leftQuotient [x] + B.leftQuotient [x] := rfl

theorem quotient_mul_of_nil_notMem (x : α) (hA : [] ∉ A) :
    (A * B).leftQuotient [x] = A.leftQuotient [x] * B := by
  ext w
  rw [Language.mem_leftQuotient, Language.mem_mul, Language.mem_mul]
  constructor
  · rintro ⟨u, hu, v, hv, huv⟩
    cases u with
    | nil => exact (hA hu).elim
    | cons y u =>
      obtain ⟨rfl, htail⟩ := List.cons.inj huv
      exact ⟨u, hu, v, hv, htail⟩
  · rintro ⟨u, hu, v, hv, rfl⟩
    exact ⟨x :: u, hu, v, hv, rfl⟩

theorem quotient_mul_of_nil_mem (x : α) (hA : [] ∈ A) :
    (A * B).leftQuotient [x] = A.leftQuotient [x] * B + B.leftQuotient [x] := by
  ext w
  rw [Language.mem_leftQuotient, Language.mem_mul, Language.mem_add, Language.mem_mul,
    Language.mem_leftQuotient]
  constructor
  · rintro ⟨u, hu, v, hv, huv⟩
    cases u with
    | nil => exact Or.inr (huv ▸ hv)
    | cons y u =>
      obtain ⟨rfl, htail⟩ := List.cons.inj huv
      exact Or.inl ⟨u, hu, v, hv, htail⟩
  · rintro (⟨u, hu, v, hv, rfl⟩ | hw)
    · exact ⟨x :: u, hu, v, hv, rfl⟩
    · exact ⟨[], hA, [x] ++ w, hw, rfl⟩

/-- The factor that reads the symbol is the first one that is not empty. -/
theorem quotient_kstar (x : α) : (A∗).leftQuotient [x] = A.leftQuotient [x] * A∗ := by
  ext w
  rw [Language.mem_leftQuotient, Language.mem_mul, Language.mem_kstar_iff_exists_nonempty]
  constructor
  · rintro ⟨factors, hw, hfactors⟩
    cases factors with
    | nil => cases hw
    | cons u rest =>
      obtain ⟨hu, hne⟩ := hfactors u (List.mem_cons_self ..)
      cases u with
      | nil => exact (hne rfl).elim
      | cons y u =>
        obtain ⟨rfl, hrest⟩ := List.cons.inj hw
        have hstar : rest.flatten ∈ A∗ :=
          Language.join_mem_kstar fun v hv => (hfactors v (List.mem_cons_of_mem _ hv)).1
        exact ⟨u, hu, rest.flatten, hstar, hrest.symm⟩
  · rintro ⟨u, hu, v, hv, rfl⟩
    obtain ⟨factors, rfl, hfactors⟩ := Language.mem_kstar_iff_exists_nonempty.1 hv
    refine ⟨(x :: u) :: factors, rfl, fun v hv => ?_⟩
    rcases List.mem_cons.1 hv with rfl | hv
    · exact ⟨hu, List.cons_ne_nil x u⟩
    · exact hfactors v hv

end FormalLanguage

namespace Language

/-! ### Combinators -/

@[simp] theorem words_followedBy (a b : Language) :
    (a.followedBy b).words = a.words * b.words := by
  unfold followedBy
  split_ifs with ha hb hz
  · rw [(onlyEmpty_iff a).1 ha, one_mul]
  · rw [(onlyEmpty_iff b).1 hb, mul_one]
  · rw [Bool.or_eq_true, rejectsAll_iff, rejectsAll_iff] at hz
    exact (FormalLanguage.mul_eq_zero_iff.2 hz).symm
  · rfl

/-- The quick look is never wrong when it answers. -/
theorem words_le_of_within {a b : Language} (h : a.within b = true) : a.words ≤ b.words := by
  intro w hw
  cases a with
  | literal c =>
    obtain ⟨d, rfl, rfl⟩ := mem_charWords.1 hw
    cases b with
    | literal e =>
      simp only [within, beq_iff_eq] at h
      exact ⟨d, h, rfl⟩
    | charSet s =>
      simp only [within, decide_eq_true_iff] at h
      exact ⟨d, h, rfl⟩
    | negatedCharSet s =>
      simp only [within, Bool.not_eq_true', decide_eq_false_iff_not] at h
      exact ⟨d, h, rfl⟩
    | anyChar => exact ⟨d, trivial, rfl⟩
    | _ => cases h
  | charSet s =>
    obtain ⟨d, -, rfl⟩ := mem_charWords.1 hw
    cases b with
    | anyChar => exact ⟨d, trivial, rfl⟩
    | _ => cases h
  | emptyString =>
    have hnil : w = [] := (Language.mem_one w).1 hw
    rw [hnil]
    exact (acceptsEmpty_iff b).1 h
  | _ => cases h

@[simp] theorem words_or (a b : Language) : (a.or b).words = a.words + b.words := by
  unfold or
  split_ifs with ha hb hab hba
  · rw [(rejectsAll_iff a).1 ha, zero_add]
  · rw [Bool.or_eq_true, beq_iff_eq] at hb
    rcases hb with hb | rfl
    · rw [(rejectsAll_iff b).1 hb, add_zero]
    · exact (Language.add_self a.words).symm
  · exact ((Language.le_iff _ _).1 (words_le_of_within hab)).symm
  · rw [add_comm]
    exact ((Language.le_iff _ _).1 (words_le_of_within hba)).symm
  · rfl

theorem eq_star_of_isStar {a : Language} (h : a.isStar = true) : ∃ b, a = star b := by
  cases a with
  | star b => exact ⟨b, rfl⟩
  | _ => cases h

@[simp] theorem words_zeroOrMore (a : Language) : a.zeroOrMore.words = a.words∗ := by
  unfold zeroOrMore
  split_ifs with ha hz
  · rw [Bool.or_eq_true] at ha
    rcases ha with ha | ha
    · rw [(onlyEmpty_iff a).1 ha, kstar_one]
    · obtain ⟨b, rfl⟩ := eq_star_of_isStar ha
      exact (kstar_idem b.words).symm
  · rw [(rejectsAll_iff a).1 hz, kstar_zero]
    rfl
  · rfl

@[simp] theorem words_oneOrMore (a : Language) : a.oneOrMore.words = a.words * a.words∗ := by
  unfold oneOrMore
  split_ifs with ha hz
  · rw [(onlyEmpty_iff a).1 ha, kstar_one, one_mul]
  · rw [(rejectsAll_iff a).1 hz, zero_mul]
    rfl
  · rw [words_followedBy, words_zeroOrMore]

@[simp] theorem words_optional (a : Language) : a.optional.words = 1 + a.words := by
  unfold optional
  split_ifs with ha hz
  · have hnil : [] ∈ a.words := by
      rw [Bool.or_eq_true, onlyEmpty_iff, acceptsEmpty_iff] at ha
      rcases ha with ha | ha
      · rw [ha]
        exact Language.nil_mem_one
      · exact ha
    have hle : (1 : FormalLanguage Symbol) ≤ a.words := by
      intro w hw
      rw [(Language.mem_one w).1 hw]
      exact hnil
    exact ((Language.le_iff _ _).1 hle).symm
  · rw [(rejectsAll_iff a).1 hz, add_zero]
    rfl
  · rw [words_or]
    rfl

@[simp] theorem words_replicate (a : Language) (n : Nat) :
    (a.replicate n).words = a.words ^ n := by
  match n with
  | 0 => rfl
  | 1 => exact (pow_one a.words).symm
  | n + 2 =>
    unfold replicate
    split_ifs with ha hz
    · rw [(onlyEmpty_iff a).1 ha, one_pow]
      rfl
    · rw [(rejectsAll_iff a).1 hz, zero_pow (by omega)]
      rfl
    · rfl

@[simp] theorem words_text (cs : List Char) : (text cs).words = {symbols cs} := by
  match cs with
  | [] => rfl
  | [c] =>
    ext w
    exact ⟨fun ⟨d, hd, hw⟩ => hd ▸ hw, fun hw => ⟨c, rfl, hw⟩⟩
  | c :: d :: rest =>
    have hrest := words_text (d :: rest)
    rw [text, words_followedBy, hrest]
    · ext w
      rw [Language.mem_mul]
      constructor
      · rintro ⟨u, ⟨e, rfl, rfl⟩, v, hv, rfl⟩
        rw [Set.mem_singleton_iff.1 hv]
        rfl
      · intro hw
        exact ⟨[.char c], ⟨c, rfl, rfl⟩, symbols (d :: rest), rfl, hw.symm⟩
    · exact List.cons_ne_nil d rest

/-! ### Derivatives -/

theorem quotient_charWords (p : Char → Prop) (c : Char) [Decidable (p c)] :
    (charWords p).leftQuotient [.char c] = if p c then 1 else 0 := by
  ext w
  rw [Language.mem_leftQuotient, mem_charWords]
  constructor
  · rintro ⟨d, hd, hw⟩
    obtain ⟨hcd, rfl⟩ := List.cons.inj hw
    cases hcd
    rw [if_pos hd]
    exact Language.nil_mem_one
  · intro hw
    split_ifs at hw with hc
    · rw [(Language.mem_one w).1 hw]
      exact ⟨c, hc, rfl⟩
    · exact (Language.notMem_zero w hw).elim

theorem quotient_charWords_endMark (p : Char → Prop) :
    (charWords p).leftQuotient [.endMark] = 0 := by
  rw [FormalLanguage.eq_zero_iff]
  rintro w ⟨c, -, hw⟩
  cases hw

theorem quotient_endWord (x : Symbol) :
    ({[.endMark]} : FormalLanguage Symbol).leftQuotient [x] = if x = .endMark then 1 else 0 := by
  ext w
  rw [Language.mem_leftQuotient]
  constructor
  · intro hw
    obtain ⟨rfl, rfl⟩ := List.cons.inj (Set.mem_singleton_iff.1 hw)
    exact Language.nil_mem_one
  · intro hw
    split_ifs at hw with hx
    · rw [(Language.mem_one w).1 hw, hx]
      exact Set.mem_singleton _
    · exact (Language.notMem_zero w hw).elim

theorem words_derivePower {a d : Language} {x : Symbol}
    (hd : d.words = a.words.leftQuotient [x]) (n : Nat) :
    (derivePower a d n).words = (a.words ^ n).leftQuotient [x] := by
  match n with
  | 0 => exact (FormalLanguage.quotient_one x).symm
  | 1 => rw [pow_one, derivePower, hd]
  | n + 2 =>
    have ih := words_derivePower hd (n + 1)
    unfold derivePower
    split_ifs with hz hnil
    · rw [Bool.or_eq_true, onlyEmpty_iff, rejectsAll_iff] at hz
      rcases hz with hz | hz
      · rw [hz, one_pow]
        exact (FormalLanguage.quotient_one x).symm
      · rw [hz, zero_pow (by omega)]
        exact (FormalLanguage.quotient_zero x).symm
    · rw [words_or, words_followedBy, words_replicate, ih, hd, pow_succ' a.words (n + 1),
        FormalLanguage.quotient_mul_of_nil_mem x ((acceptsEmpty_iff a).1 hnil)]
    · have hnil' : [] ∉ a.words := fun h => hnil ((acceptsEmpty_iff a).2 h)
      rw [words_followedBy, words_replicate, hd, pow_succ' a.words (n + 1),
        FormalLanguage.quotient_mul_of_nil_notMem x hnil']

/-- The derivative stands for the left quotient. -/
theorem words_derive (x : Symbol) (a : Language) :
    (a.derive x).words = a.words.leftQuotient [x] := by
  induction a with
  | literal c =>
    cases x with
    | char d =>
      rw [derive, words, quotient_charWords]
      by_cases h : d = c
      · simp [h, words]
      · simp [h, words]
    | endMark => exact (quotient_charWords_endMark _).symm
  | charSet s =>
    cases x with
    | char d =>
      rw [words, quotient_charWords]
      by_cases h : d ∈ s
      · simp [derive, h, words]
      · simp [derive, h, words]
    | endMark => exact (quotient_charWords_endMark _).symm
  | negatedCharSet s =>
    cases x with
    | char d =>
      rw [words, quotient_charWords]
      by_cases h : d ∈ s
      · simp [derive, h, words]
      · simp [derive, h, words]
    | endMark => exact (quotient_charWords_endMark _).symm
  | anyChar =>
    cases x with
    | char d =>
      rw [words, quotient_charWords, if_pos trivial]
      rfl
    | endMark => exact (quotient_charWords_endMark _).symm
  | endOfInput =>
    rw [words, quotient_endWord, derive]
    split_ifs with h
    · rfl
    · rfl
  | emptyLanguage => exact (FormalLanguage.quotient_zero x).symm
  | emptyString => exact (FormalLanguage.quotient_one x).symm
  | concat a b iha ihb =>
    rw [derive, words]
    split_ifs with hnil
    · rw [words_or, words_followedBy, iha, ihb,
        FormalLanguage.quotient_mul_of_nil_mem x ((acceptsEmpty_iff a).1 hnil)]
    · have hnil' : [] ∉ a.words := fun h => hnil ((acceptsEmpty_iff a).2 h)
      rw [words_followedBy, iha, FormalLanguage.quotient_mul_of_nil_notMem x hnil']
  | union a b iha ihb =>
    rw [derive, words_or, iha, ihb, words, FormalLanguage.quotient_add]
  | star a ih =>
    rw [derive, words_followedBy, ih, words, FormalLanguage.quotient_kstar]
  | power a n ih => exact words_derivePower ih n

theorem words_deriveWord (a : Language) (w : List Symbol) :
    (a.deriveWord w).words = a.words.leftQuotient w := by
  induction w generalizing a with
  | nil => rfl
  | cons x w ih =>
    rw [deriveWord_cons, ih, words_derive, ← Language.leftQuotient_append]
    rfl

theorem acceptsEmpty_deriveWord_iff (a : Language) (w : List Symbol) :
    (a.deriveWord w).acceptsEmpty = true ↔ w ∈ a.words := by
  rw [acceptsEmpty_iff, words_deriveWord, Language.mem_leftQuotient, List.append_nil]

/-- What is left of a tree after a word rejects everything just if the tree has no word that
goes on from there. -/
theorem rejectsAll_deriveWord_iff (a : Language) (w : List Symbol) :
    (a.deriveWord w).rejectsAll = true ↔ ∀ v, w ++ v ∉ a.words := by
  rw [rejectsAll_iff, words_deriveWord, FormalLanguage.eq_zero_iff]
  rfl

end Language

end DerivativeLexer
