import DerivativeLexer.Lexer.Engine
import DerivativeLexer.Proofs.Language.Derivative

/-! # What the live rules know

A match in progress keeps one derivative for each rule that may still fire, and drops a rule as
soon as its derivative rejects everything. Here the questions that the engine puts to a match are
answered by the patterns as they were declared: whether some rule has the text read so far, which
one is declared first, and whether any rule has a text that goes on from there. Dropping a rule
never changes an answer, because nothing goes on from a derivative that rejects everything. -/

namespace DerivativeLexer

variable {τ π : Type}

namespace RuleTable

def Matches (t : RuleTable τ π) (s : StateId) (w : List Symbol) (index : Nat) : Prop :=
  ∃ rule, (t.rules s)[index]? = some rule ∧ w ∈ rule.pattern.words

/-- Of the rules of a state that have the word, this one is declared first. -/
def Wins (t : RuleTable τ π) (s : StateId) (w : List Symbol) (index : Nat) : Prop :=
  t.Matches s w index ∧ ∀ j < index, ¬t.Matches s w j

theorem Wins.unique {t : RuleTable τ π} {s : StateId} {w : List Symbol} {i j : Nat}
    (hi : t.Wins s w i) (hj : t.Wins s w j) : i = j := by
  rcases Nat.lt_trichotomy i j with h | h | h
  · exact (hj.2 i h hi.1).elim
  · exact h
  · exact (hi.2 j h hj.1).elim

theorem mem_rules {t : RuleTable τ π} {s : StateId} {index : Nat} {rule : Rule τ π}
    (h : (t.rules s)[index]? = some rule) :
    ∃ st ∈ t.states, rule ∈ st.rules := by
  unfold rules at h
  cases hst : t.states[s.index]? with
  | none => simp [hst] at h
  | some st =>
    simp only [hst] at h
    exact ⟨st, List.mem_of_getElem? hst, List.mem_of_getElem? h⟩

theorem not_matches_nil {t : RuleTable τ π} (h : t.firstNullable? = none) (s : StateId)
    (index : Nat) : ¬t.Matches s [] index := by
  rintro ⟨rule, hrule, hnil⟩
  obtain ⟨st, hst, hmem⟩ := mem_rules hrule
  have hst' := List.findSome?_eq_none_iff.1 h st hst
  rw [Option.map_eq_none_iff, List.find?_eq_none] at hst'
  exact hst' rule hmem ((Language.acceptsEmpty_iff rule.pattern).2 hnil)

theorem fire?_isSome {t : RuleTable τ π} {s : StateId} {w : List Symbol} {index : Nat}
    (h : t.Matches s w index) (matched : Matched) (payloads : Payloads π) :
    ∃ firing, t.fire? s index matched payloads = some firing := by
  obtain ⟨rule, hrule, -⟩ := h
  rw [fire?, hrule]
  exact ⟨_, rfl⟩

def derivatives (t : RuleTable τ π) (s : StateId) (w : List Symbol) : List LiveRule :=
  (t.rules s).mapIdx fun i rule => ⟨i, rule.pattern.deriveWord w⟩

theorem mem_derivatives {t : RuleTable τ π} {s : StateId} {w : List Symbol} {r : LiveRule} :
    r ∈ t.derivatives s w ↔
      ∃ rule, (t.rules s)[r.index]? = some rule ∧ r.language = rule.pattern.deriveWord w := by
  unfold derivatives
  rw [List.mem_mapIdx]
  constructor
  · rintro ⟨i, hi, rfl⟩
    exact ⟨_, List.getElem?_eq_getElem hi, rfl⟩
  · rintro ⟨rule, hrule, hlang⟩
    obtain ⟨hi, rfl⟩ := List.getElem?_eq_some_iff.1 hrule
    exact ⟨r.index, hi, by rw [← hlang]⟩

theorem acceptsEmpty_derivatives {t : RuleTable τ π} {s : StateId} {w : List Symbol}
    {r : LiveRule} (hr : r ∈ t.derivatives s w) :
    r.language.acceptsEmpty = true ↔ t.Matches s w r.index := by
  obtain ⟨rule, hrule, hlang⟩ := mem_derivatives.1 hr
  rw [hlang, Language.acceptsEmpty_deriveWord_iff]
  constructor
  · intro hw
    exact ⟨rule, hrule, hw⟩
  · rintro ⟨rule', hrule', hw⟩
    rw [hrule] at hrule'
    rwa [Option.some.inj hrule']

theorem rejectsAll_derivatives {t : RuleTable τ π} {s : StateId} {w : List Symbol}
    {r : LiveRule} (hr : r ∈ t.derivatives s w) :
    r.language.rejectsAll = true ↔ ∀ v, ¬t.Matches s (w ++ v) r.index := by
  obtain ⟨rule, hrule, hlang⟩ := mem_derivatives.1 hr
  rw [hlang, Language.rejectsAll_deriveWord_iff]
  constructor
  · rintro hall v ⟨rule', hrule', hw⟩
    rw [hrule] at hrule'
    rw [← Option.some.inj hrule'] at hw
    exact hall v hw
  · intro hall v hw
    exact hall v ⟨rule, hrule, hw⟩

end RuleTable

namespace Matching

variable {t : RuleTable τ π} {s : StateId} {start : Position} {w : List Symbol}

def after (t : RuleTable τ π) (s : StateId) (start : Position) (w : List Symbol) : Matching :=
  w.foldl derive (.enter t s start)

theorem after_snoc (x : Symbol) : after t s start (w ++ [x]) = (after t s start w).derive x := by
  rw [after, List.foldl_append]
  rfl

theorem live_derive (m : Matching) (x : Symbol) :
    (m.derive x).live =
      (m.live.map fun r => { r with language := r.language.derive x }).filter
        fun r => !r.language.rejectsAll := rfl

@[simp] theorem origin_after : (after t s start w).origin = s := by
  induction w using List.reverseRecOn with
  | nil => rfl
  | append_singleton w x ih => rw [after_snoc, derive, ih]

@[simp] theorem start_after : (after t s start w).start = start := by
  induction w using List.reverseRecOn with
  | nil => rfl
  | append_singleton w x ih => rw [after_snoc, derive, ih]

/-- The live rules are the declared ones in their order, without those that reject everything
once something was read. -/
theorem live_after :
    (after t s start w).live =
      (t.derivatives s w).filter fun r => w.isEmpty || !r.language.rejectsAll := by
  induction w using List.reverseRecOn with
  | nil => simp [after, enter, RuleTable.derivatives, Language.deriveWord_nil]
  | append_singleton w x ih =>
    have hderive : t.derivatives s (w ++ [x]) =
        (t.derivatives s w).map fun r => { r with language := r.language.derive x } := by
      simp only [RuleTable.derivatives, List.mapIdx_eq_zipIdx_map, List.map_map,
        Language.deriveWord_append, Language.deriveWord_cons, Language.deriveWord_nil,
        Function.comp_def]
    -- a rule that was dropped before would be dropped now
    have hdropped : ∀ a : Language, (a.derive x).rejectsAll = false → a.rejectsAll = false := by
      intro a hd
      rw [← Bool.not_eq_true] at hd ⊢
      intro ha
      apply hd
      rw [Language.rejectsAll_iff] at ha ⊢
      rw [Language.words_derive, ha, FormalLanguage.quotient_zero]
    rw [after_snoc, live_derive, ih, hderive, List.filter_map, List.filter_map,
      List.filter_filter]
    congr 1
    refine List.filter_congr fun r _ => ?_
    cases hd : (r.language.derive x).rejectsAll with
    | true => simp [hd]
    | false => simp [hd, hdropped r.language hd]

theorem mem_live_after {r : LiveRule} :
    r ∈ (after t s start w).live ↔
      r ∈ t.derivatives s w ∧ (w = [] ∨ r.language.rejectsAll = false) := by
  rw [live_after, List.mem_filter, Bool.or_eq_true, List.isEmpty_iff, Bool.not_eq_true']

theorem mem_live_of_matches (start : Position) {v : List Symbol} {i : Nat}
    (h : t.Matches s (w ++ v) i) :
    ∃ r ∈ (after t s start w).live, r.index = i ∧ r.language.rejectsAll = false := by
  obtain ⟨rule, hrule, hw⟩ := h
  have hmem : (⟨i, rule.pattern.deriveWord w⟩ : LiveRule) ∈ t.derivatives s w :=
    RuleTable.mem_derivatives.2 ⟨rule, hrule, rfl⟩
  have hrej : (rule.pattern.deriveWord w).rejectsAll = false := by
    rw [← Bool.not_eq_true, Language.rejectsAll_deriveWord_iff]
    exact fun hall => hall v hw
  exact ⟨_, mem_live_after.2 ⟨hmem, Or.inr hrej⟩, rfl, hrej⟩

theorem accepts_after : (after t s start w).accepts = true ↔ ∃ i, t.Matches s w i := by
  rw [accepts, List.any_eq_true]
  constructor
  · rintro ⟨r, hr, haccepts⟩
    exact ⟨r.index, (RuleTable.acceptsEmpty_derivatives (mem_live_after.1 hr).1).1 haccepts⟩
  · rintro ⟨i, hi⟩
    have hi' : t.Matches s (w ++ []) i := by rwa [List.append_nil]
    obtain ⟨r, hr, rfl, -⟩ := mem_live_of_matches start hi'
    exact ⟨r, hr, (RuleTable.acceptsEmpty_derivatives (mem_live_after.1 hr).1).2 hi⟩

theorem rejects_after :
    (after t s start w).rejects = true ↔ ∀ v i, ¬t.Matches s (w ++ v) i := by
  rw [rejects, List.all_eq_true]
  constructor
  · intro hall v i hi
    obtain ⟨r, hr, -, hrej⟩ := mem_live_of_matches start hi
    rw [hall r hr] at hrej
    cases hrej
  · intro hall r hr
    refine (RuleTable.rejectsAll_derivatives (mem_live_after.1 hr).1).2 fun v => ?_
    exact hall v r.index

/-- A settled match has the text read so far, and no rule has a longer one. -/
theorem matches_of_settled (h : (after t s start w).settled = true) :
    (∃ i, t.Matches s w i) ∧ ∀ v i, t.Matches s (w ++ v) i → v = [] := by
  unfold settled at h
  split at h
  · rename_i r hlist
    have hr : r ∈ (after t s start w).live.filter fun r => !r.language.rejectsAll := by
      rw [hlist]
      exact List.mem_singleton_self r
    obtain ⟨hlive, -⟩ := List.mem_filter.1 hr
    obtain ⟨rule, hrule, hlang⟩ := RuleTable.mem_derivatives.1 (mem_live_after.1 hlive).1
    rw [Language.onlyEmpty_iff, hlang, Language.words_deriveWord] at h
    obtain ⟨hnil, hall⟩ := FormalLanguage.eq_one_iff.1 h
    rw [Language.mem_leftQuotient, List.append_nil] at hnil
    refine ⟨⟨r.index, rule, hrule, hnil⟩, fun v i hi => ?_⟩
    -- the rule that has the longer text is live, so it is the one rule left
    obtain ⟨r', hr', rfl, hrej⟩ := mem_live_of_matches start hi
    have hmem : r' ∈ [r] := by
      rw [← hlist]
      exact List.mem_filter.2 ⟨hr', by rw [hrej]; rfl⟩
    rw [List.mem_singleton.1 hmem] at hi
    obtain ⟨rule', hrule', hw⟩ := hi
    rw [hrule] at hrule'
    rw [← Option.some.inj hrule'] at hw
    exact hall v hw
  · cases h

theorem winner?_after :
    (after t s start w).winner? =
      (t.rules s).findIdx? fun rule => (rule.pattern.deriveWord w).acceptsEmpty := by
  have hkeep : ∀ r ∈ t.derivatives s w,
      ((w.isEmpty || !r.language.rejectsAll) && r.language.acceptsEmpty) =
        r.language.acceptsEmpty := by
    intro r _
    cases ha : r.language.acceptsEmpty with
    | false => rw [Bool.and_false]
    | true =>
      have hrej : r.language.rejectsAll = false := by
        rw [← Bool.not_eq_true, Language.rejectsAll_iff, FormalLanguage.eq_zero_iff]
        exact fun hall => hall [] ((Language.acceptsEmpty_iff r.language).1 ha)
      rw [hrej, Bool.not_false, Bool.or_true, Bool.and_true]
  have hfind : (after t s start w).live.find? (·.language.acceptsEmpty) =
      (t.derivatives s w).find? (·.language.acceptsEmpty) := by
    rw [live_after, ← List.head?_filter, ← List.head?_filter, List.filter_filter]
    congr 1
    refine List.filter_congr fun r hr => ?_
    rw [Bool.and_comm]
    exact hkeep r hr
  rw [winner?, hfind, RuleTable.derivatives, List.mapIdx_eq_zipIdx_map, List.find?_map,
    Option.map_map, List.findIdx?_eq_fst_find?_zipIdx]
  rfl

theorem winner?_after_eq_some_iff {i : Nat} :
    (after t s start w).winner? = some i ↔ t.Wins s w i := by
  rw [winner?_after, List.findIdx?_eq_some_iff_getElem]
  constructor
  · rintro ⟨hi, haccepts, hbefore⟩
    rw [Language.acceptsEmpty_deriveWord_iff] at haccepts
    refine ⟨⟨_, List.getElem?_eq_getElem hi, haccepts⟩, ?_⟩
    rintro j hj ⟨rule, hrule, hw⟩
    obtain ⟨hlt, rfl⟩ := List.getElem?_eq_some_iff.1 hrule
    exact hbefore j hj ((Language.acceptsEmpty_deriveWord_iff _ _).2 hw)
  · rintro ⟨⟨rule, hrule, hw⟩, hbefore⟩
    obtain ⟨hi, rfl⟩ := List.getElem?_eq_some_iff.1 hrule
    refine ⟨hi, (Language.acceptsEmpty_deriveWord_iff _ _).2 hw, fun j hj haccepts => ?_⟩
    rw [Language.acceptsEmpty_deriveWord_iff] at haccepts
    exact hbefore j hj ⟨_, List.getElem?_eq_getElem (by omega), haccepts⟩

theorem exists_wins {i : Nat} (h : t.Matches s w i) : ∃ j, t.Wins s w j := by
  have haccepts : (after t s .start w).accepts = true := accepts_after.2 ⟨i, h⟩
  rw [← winner?_isSome, Option.isSome_iff_exists] at haccepts
  obtain ⟨j, hj⟩ := haccepts
  exact ⟨j, winner?_after_eq_some_iff.1 hj⟩

end Matching

end DerivativeLexer
