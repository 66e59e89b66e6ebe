import DerivativeLexer.Proofs.Lexer.Tiling
import Mathlib.Tactic.Ring

/-! # How much work there is to do

A table is accepted when no pattern has the empty word, so every match but one at the end of the
input has a character. That bounds the work of an engine by the text it is given: between two
matches it reads at most the rest of the text, and the next match begins further behind, however
often the engine goes back. -/

namespace DerivativeLexer

variable {τ π : Type}

/-! ### Tables that are accepted -/

/-- No rule before this one has the empty word, in the order of states and then of rules. -/
structure RuleTable.FirstNullable (t : RuleTable τ π) (st : StateRules τ π) (rule : Rule τ π) :
    Prop where
  nullable : [] ∈ rule.pattern.words
  states : ∃ before after, t.states = before ++ st :: after ∧
    ∀ earlier ∈ before, ∀ r ∈ earlier.rules, [] ∉ r.pattern.words
  rules : ∃ before after, st.rules = before ++ rule :: after ∧
    ∀ r ∈ before, [] ∉ r.pattern.words

section

variable {t : RuleTable τ π} {config : LexerConfig}

theorem Language.acceptsEmpty_eq_false_iff (a : Language) :
    a.acceptsEmpty = false ↔ [] ∉ a.words := by
  rw [← acceptsEmpty_iff, Bool.not_eq_true]

theorem RuleTable.firstNullable?_eq_none_iff :
    t.firstNullable? = none ↔ ∀ st ∈ t.states, ∀ rule ∈ st.rules, [] ∉ rule.pattern.words := by
  simp [firstNullable?, Language.acceptsEmpty_eq_false_iff]

theorem RuleTable.firstNullable?_eq_some_iff {first : String × Language} :
    t.firstNullable? = some first ↔
      ∃ st rule, t.FirstNullable st rule ∧ first = (st.name, rule.pattern) := by
  have hnone : ∀ st : StateRules τ π, (st.rules.find? (·.pattern.acceptsEmpty)).map
      (fun r => (st.name, r.pattern)) = none ↔ ∀ r ∈ st.rules, [] ∉ r.pattern.words := by
    simp [Language.acceptsEmpty_eq_false_iff]
  simp only [firstNullable?, List.findSome?_eq_some_iff, Option.map_eq_some_iff,
    List.find?_eq_some_iff_append, hnone]
  constructor
  · rintro ⟨before, st, after, hstates, ⟨rule, ⟨haccepts, rbefore, rafter, hrules, hfirst⟩, rfl⟩,
      hearlier⟩
    refine ⟨st, rule, ⟨(Language.acceptsEmpty_iff _).1 haccepts, ⟨before, after, hstates, hearlier⟩,
      ⟨rbefore, rafter, hrules, fun r hr => ?_⟩⟩, rfl⟩
    simpa [Language.acceptsEmpty_eq_false_iff] using hfirst r hr
  · rintro ⟨st, rule, ⟨hnullable, ⟨before, after, hstates, hearlier⟩,
      ⟨rbefore, rafter, hrules, hfirst⟩⟩, rfl⟩
    refine ⟨before, st, after, hstates, ⟨rule, ⟨(Language.acceptsEmpty_iff _).2 hnullable,
      rbefore, rafter, hrules, fun r hr => ?_⟩, rfl⟩, hearlier⟩
    simpa [Language.acceptsEmpty_eq_false_iff] using hfirst r hr

theorem Lexer.build_eq_ok_iff (rules : RuleTable τ π) (config : LexerConfig) :
    (∃ l, build rules config = .ok l ∧ l.rules = rules ∧ l.config = config) ↔
      ∀ st ∈ rules.states, ∀ rule ∈ st.rules, [] ∉ rule.pattern.words := by
  rw [← RuleTable.firstNullable?_eq_none_iff]
  unfold build
  constructor
  · rintro ⟨l, hbuild, rfl, -⟩
    exact l.productive
  · intro hnone
    split
    · exact ⟨_, rfl, rfl, rfl⟩
    next name pattern hsome =>
      rw [hnone] at hsome
      cases hsome

/-- A refused table is reported with its first rule that has the empty word. -/
theorem Lexer.build_eq_error_iff (rules : RuleTable τ π) (config : LexerConfig) (e : LexError) :
    build rules config = .error e ↔
      ∃ st rule, rules.FirstNullable st rule ∧
        e = .invalidRule st.name rule.pattern.render := by
  unfold build
  split
  next hnone =>
    refine ⟨fun h => (nomatch h), ?_⟩
    rintro ⟨st, rule, hfirst, -⟩
    have hsome := RuleTable.firstNullable?_eq_some_iff.2 ⟨st, rule, hfirst, rfl⟩
    rw [hnone] at hsome
    cases hsome
  next name pattern hsome =>
    obtain ⟨st, rule, hfirst, heq⟩ := RuleTable.firstNullable?_eq_some_iff.1 hsome
    obtain ⟨rfl, rfl⟩ := Prod.mk.inj heq
    constructor
    · intro h
      exact ⟨st, rule, hfirst, (Except.error.inj h).symm⟩
    · rintro ⟨st', rule', hfirst', rfl⟩
      have hsame := RuleTable.firstNullable?_eq_some_iff.2 ⟨st', rule', hfirst', rfl⟩
      rw [hsome] at hsame
      obtain ⟨hname, hpattern⟩ := Prod.mk.inj (Option.some.inj hsame)
      rw [hname, hpattern]

end

/-! ### Characters that a match in progress is derived by -/

/-- The match in progress was derived by a character, even if it was too long then. -/
def Move.derives : Move τ π → Bool
  | .read _ _ | .fail (.matchTooLong _ _ _) _ => true
  | _ => false

/-- The characters of a text of length `n` that are read at most by the matches that begin at the
first `c` places: each reads at most all that is behind its beginning. -/
def readings (n : Nat) : Nat → Nat
  | 0 => 0
  | c + 1 => readings n c + (n - c)

theorem readings_mono_text {n n' : Nat} (h : n ≤ n') (c : Nat) : readings n c ≤ readings n' c := by
  induction c with
  | zero => exact Nat.le_refl 0
  | succ c ih =>
    rw [readings, readings]
    omega

theorem readings_mono {n c c' : Nat} (h : c ≤ c') : readings n c ≤ readings n c' := by
  induction h with
  | refl => exact Nat.le_refl _
  | step h ih =>
    rw [readings]
    omega

theorem readings_add {n c : Nat} (h : c ≤ n) :
    2 * readings n c + (n - c) * (n - c + 1) = n * (n + 1) := by
  induction c with
  | zero => simp [readings]
  | succ c ih =>
    have hlt : n - c = n - (c + 1) + 1 := by omega
    rw [readings, ← ih (by omega), hlt]
    ring

theorem readings_self (n : Nat) : readings n n = n * (n + 1) / 2 := by
  have h := readings_add (Nat.le_refl n)
  rw [Nat.sub_self, Nat.zero_mul] at h
  omega

/-! ### The work of an engine -/

theorem length_le_flatMap {ms : List Matched} (h : ∀ m ∈ ms, m.text ≠ []) :
    ms.length ≤ (ms.flatMap (·.text)).length := by
  induction ms with
  | nil => exact Nat.le_refl 0
  | cons m later ih =>
    have hpos := List.length_pos_of_ne_nil (h m List.mem_cons_self)
    have hle := ih fun m hm => h m (List.mem_cons_of_mem _ hm)
    rw [List.flatMap_cons, List.length_append, List.length_cons]
    omega

section

variable {l : Lexer τ π} {k : Nat} {moves : List (Move τ π)} {now : Option (Engine π)}
  {f : Feed Char} {e : Engine π} {text : List Char} {closed : Bool} {ms : List Matched}

/-- All matches but the last have a character of their own. -/
theorem CutsOff.length_le (h : CutsOff k text closed ms) : ms.length ≤ text.length + 1 := by
  have hdrop := length_le_flatMap h.nonempty
  have hpart : (ms.dropLast.flatMap (·.text)).length ≤ (ms.flatMap (·.text)).length := by
    obtain ⟨last, hlast⟩ := ms.dropLast_prefix
    conv_rhs => rw [← hlast, List.flatMap_append, List.length_append]
    exact Nat.le_add_right _ _
  have hwhole := h.beginning.length_le
  rw [List.length_dropLast] at hdrop
  omega

/-- The place of an engine in the text, in numbers. -/
theorem Continues.offsets (h : Continues l k f ms e) (hreached : f.Reached k)
    (hbeginning : ms.flatMap (·.text) <+: f.textFrom k) {read ahead : List Char}
    (htracks : Engine.Tracks l.rules f e read ahead) :
    k ≤ e.matching.start.offset ∧
      e.matching.start.offset - k + read.length + ahead.length = (f.textFrom k).length := by
  have hlength := congrArg List.length (h.text_eq hreached hbeginning htracks)
  have hstart : e.matching.start.offset = k + (ms.flatMap (·.text)).length := by
    rw [h.start_eq, Position.offset_advanceBy]
    rfl
  simp only [List.length_append] at hlength
  omega

/-- The match in progress has been derived by what was read for it, and each match before it by no
more than what was there from its beginning on. -/
def Spent (k n derived : Nat) (e : Engine π) : Prop :=
  derived ≤ readings n (e.matching.start.offset - k) +
    (e.position.offset - e.matching.start.offset)

/-- One move of the engine. -/
theorem Spent.step {n derived : Nat} (h : Spent k n derived e) (hall : derived ≤ readings n n)
    (hcontinues : Continues l k f ms e) (hreached : f.Reached k)
    (hbeginning : ms.flatMap (·.text) <+: f.textFrom k) (hn : (f.textFrom k).length = n)
    {move : Move τ π} (hmove : e.move l.rules l.config f = move) :
    derived + [move].countP Move.derives ≤ readings n n ∧
      ∀ e', move.goesOn? e = some e' → Spent k n (derived + [move].countP Move.derives) e' := by
  obtain ⟨read, ahead, htracks⟩ := hcontinues.tracks
  obtain ⟨hle, hlength⟩ := hcontinues.offsets hreached hbeginning htracks
  have hoffset := htracks.position_offset
  have hexplains := Engine.explains_move l.config htracks
  rw [hmove] at hexplains
  rw [hn] at hlength
  rw [Spent, hoffset, Nat.add_sub_cancel_left] at h
  -- one more character of the match in progress, and all of it
  have hone : read.length < n - (e.matching.start.offset - k) → derived + 1 ≤ readings n n := by
    intro hlt
    have hsucc : readings n (e.matching.start.offset - k + 1) ≤ readings n n :=
      readings_mono (by omega)
    rw [readings] at hsucc
    omega
  cases hexplains with
  | rest =>
    refine ⟨hall, fun e' he => ?_⟩
    rw [← Option.some.inj he, Spent, hoffset, Nat.add_sub_cancel_left]
    exact h
  | read hahead hread htracks' horigin hstart hpayloads =>
    have hoffset' := htracks'.position_offset
    rw [hahead, List.length_cons] at hlength
    refine ⟨hone (by omega), fun e' he => ?_⟩
    rw [← Option.some.inj he, Spent, hoffset', hstart, Nat.add_sub_cancel_left, List.length_append]
    exact Nat.add_le_add_right h 1
  | @fire p q i firing e' replays hpq hwins hbeyond hfiring htracks' horigin hstart hpayloads =>
    have hpos : 0 < p.length := by
      refine List.length_pos_of_ne_nil ?_
      rintro rfl
      exact RuleTable.not_matches_nil l.productive _ _ hwins.1
    refine ⟨hall, fun e'' he => ?_⟩
    -- the next match begins further behind, so this one is paid for
    have hpaid : readings n (e.matching.start.offset - k + 1) ≤
        readings n ((e.matching.start.advanceBy p).offset - k) := by
      refine readings_mono ?_
      rw [Position.offset_advanceBy]
      omega
    rw [readings] at hpaid
    rw [← Option.some.inj he, Spent, hstart]
    simp only [Move.derives, List.countP_singleton, Bool.false_eq_true, if_false]
    omega
  | last => exact ⟨hall, fun e' he => nomatch he⟩
  | deadEnd => exact ⟨hall, fun e' he => nomatch he⟩
  | tooLong hahead =>
    rw [hahead, List.length_cons] at hlength
    exact ⟨hone (by omega), fun e' he => nomatch he⟩

theorem Course.derives_le (h : Course l k moves now f) :
    moves.countP Move.derives ≤ readings (f.textFrom k).length (f.textFrom k).length ∧
      ∀ e, now = some e → Spent k (f.textFrom k).length (moves.countP Move.derives) e := by
  induction h with
  | start hreached => exact ⟨Nat.zero_le _, fun e he => Nat.zero_le _⟩
  | @grow moves now f h items closing ih =>
    have hmore : (f.textFrom k).length ≤ ((f.grow items closing).textFrom k).length := by
      rw [Feed.textFrom_grow h.cutsOff.1, List.length_append]
      exact Nat.le_add_right _ _
    refine ⟨ih.1.trans ((readings_mono_text hmore _).trans (readings_mono hmore)), fun e he => ?_⟩
    exact (ih.2 e he).trans (Nat.add_le_add_right (readings_mono_text hmore _) _)
  | @move moves e f h ih =>
    obtain ⟨hreached, hcuts, hcontinues⟩ := h.cutsOff
    have hnow := hcontinues e rfl
    obtain ⟨read, ahead, htracks⟩ := hnow.tracks
    rw [(htracks.reads l.config).textFrom_eq, List.countP_append]
    exact (ih.2 e rfl).step ih.1 hnow hreached hcuts.beginning rfl rfl
  | giveUp h ih => exact ⟨ih.1, fun e he => nomatch he⟩

/-- However much the engine goes back, it fires at most once more than there are characters, and
reads at most as many as there would be if every match began at the next character and read all the
rest. -/
theorem Course.work_le (h : Course l k moves now f) {n : Nat} (hn : (f.textFrom k).length = n) :
    (Move.firings moves).length ≤ n + 1 ∧ moves.countP Move.derives ≤ n * (n + 1) / 2 := by
  have hmatches := h.cutsOff.2.1.length_le
  have hderives := h.derives_le.1
  rw [Move.matched, List.length_map, hn] at hmatches
  rw [hn, readings_self] at hderives
  exact ⟨hmatches, hderives⟩

end

end DerivativeLexer
