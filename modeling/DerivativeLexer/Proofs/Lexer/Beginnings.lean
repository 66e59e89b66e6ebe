import DerivativeLexer.Proofs.Lexer.Tiling

/-! # Where matches begin

The run of an engine on a whole text comes to a point where the first match begins, and from there
to a point where the next one begins, until it stops. What happens between two such points is one
step of the procedure of maximal munch, so the run of a lexer can be followed from match to match:
by the rules of a state it is known which match comes next, and where the run goes on behind it. -/

namespace DerivativeLexer

open DerivativeLexer.Language (symbols)

variable {τ π : Type}

/-- The run is live, and its engine stands at a place where it begins a match in a state. -/
structure SoloRun.Begins (l : Lexer τ π) (r : SoloRun τ π) (s : StateId) (place : Position) :
    Prop where
  live : r.status.isLive = true
  matching_eq : r.engine.matching = .enter l.rules s place
  position_eq : r.engine.position = place

/-- In the run of a lexer on a text a match begins in a state at a place. The payloads are then
these, and the items are those that were emitted before. -/
def Lexer.Begins (l : Lexer τ π) (source : List Char) (s : StateId) (payloads : Payloads π)
    (place : Position) (items : List τ) : Prop :=
  ∃ n, ((SoloRun.start l source).run l n).Begins l s place ∧
    ((SoloRun.start l source).run l n).engine.payloads = payloads ∧
    ((SoloRun.start l source).run l n).output.queue = items

/-- A place where a match begins in a state, with the text that is still to be matched. -/
structure MatchStart (π : Type) where
  state : StateId
  payloads : Payloads π
  place : Position
  text : List Char

/-- The rule is the first one of a state that has a word. -/
def RuleTable.First (t : RuleTable τ π) (s : StateId) (w : List Symbol) (rule : Rule τ π) : Prop :=
  ∃ before after, t.rules s = before ++ rule :: after ∧ w ∈ rule.pattern.words ∧
    ∀ other ∈ before, w ∉ other.pattern.words

theorem RuleTable.First.wins {t : RuleTable τ π} {s : StateId} {w : List Symbol} {rule : Rule τ π}
    (h : t.First s w rule) :
    ∃ i, t.Wins s w i ∧ ∀ matched payloads, t.fire? s i matched payloads =
      let (next, out) := rule.action.perform matched payloads
      some ⟨s, i, matched, out.effects, out.payloads, next⟩ := by
  obtain ⟨before, after, hrules, hwords, hfirst⟩ := h
  have hrule : (t.rules s)[before.length]? = some rule := by
    rw [hrules, List.getElem?_append_right (Nat.le_refl _), Nat.sub_self]
    rfl
  refine ⟨before.length, ⟨⟨rule, hrule, hwords⟩, ?_⟩, fun matched payloads => ?_⟩
  · rintro j hj ⟨other, hother, hw⟩
    rw [hrules, List.getElem?_append_left hj] at hother
    exact hfirst other (List.mem_of_getElem? hother) hw
  · rw [fire?, hrule]
    rfl

namespace RuleTable

/-- After this text no rule of the state has a longer one. -/
def noneLonger (t : RuleTable τ π) (s : StateId) (text : List Char) : Bool :=
  (t.rules s).all fun rule =>
    let left := rule.pattern.deriveWord (symbols text)
    left.rejectsAll || left.onlyEmpty

theorem nothingBeyond_of_noneLonger {t : RuleTable τ π} {s : StateId} {p : List Char}
    (h : t.noneLonger s p = true) (q : List Char) : t.NothingBeyond s (p ++ q) p.length := by
  refine nothingBeyond_of_extensions fun v i hv => ?_
  rintro ⟨rule, hrule, hwords⟩
  have hrule' := List.all_eq_true.1 h rule (List.mem_of_getElem? hrule)
  have hleft : v ∈ (rule.pattern.deriveWord (symbols p)).words := by
    rw [Language.words_deriveWord]
    exact hwords
  rcases Bool.or_eq_true_iff.1 hrule' with hnone | hempty
  · rw [Language.rejectsAll_iff] at hnone
    rw [hnone] at hleft
    exact Language.notMem_zero v hleft
  · rw [Language.onlyEmpty_iff] at hempty
    rw [hempty] at hleft
    exact hv ((Language.mem_one v).1 hleft)

/-- Two longest matches of one text are the same. -/
theorem eq_of_nothingBeyond {t : RuleTable τ π} {s : StateId} {p q p' q' : List Char} {i j : Nat}
    (hsame : p ++ q = p' ++ q') (hbeyond : t.NothingBeyond s (p ++ q) p.length)
    (hmatches : t.Matches s (symbols p) i) (hbeyond' : t.NothingBeyond s (p' ++ q') p'.length)
    (hmatches' : t.Matches s (symbols p') j) : p = p' ∧ q = q' := by
  have hle : p.length ≤ p'.length :=
    Nat.not_lt.1 fun hlt => hbeyond'.beginning p ⟨q, hsame⟩ hlt _ hmatches
  have hge : p'.length ≤ p.length :=
    Nat.not_lt.1 fun hlt => hbeyond.beginning p' ⟨q', hsame.symm⟩ hlt _ hmatches'
  exact List.append_inj hsame (Nat.le_antisymm hle hge)

/-- The rule at an index is the first that has a word, if those before it do not accept it. -/
theorem first_of_getElem? {t : RuleTable τ π} {s : StateId} {rule : Rule τ π} {w : List Symbol}
    (n : Nat) (hrule : (t.rules s)[n]? = some rule) (hword : w ∈ rule.pattern.words)
    (hbefore : (((t.rules s).take n).any fun other =>
      (other.pattern.deriveWord w).acceptsEmpty) = false) : t.First s w rule := by
  obtain ⟨hlt, hget⟩ := List.getElem?_eq_some_iff.1 hrule
  refine ⟨(t.rules s).take n, (t.rules s).drop (n + 1), ?_, hword, fun other hother hmem => ?_⟩
  · rw [← hget, ← List.drop_eq_getElem_cons hlt, List.take_append_drop]
  · have hrejects := List.any_eq_false.1 hbefore other hother
    exact hrejects ((Language.acceptsEmpty_deriveWord_iff _ _).2 hmem)

end RuleTable

namespace SoloRun

variable {l : Lexer τ π} {r : SoloRun τ π} {s : StateId} {payloads : Payloads π}
  {place : Position} {text p q : List Char} {i : Nat} {firing : Firing τ π}

/-- The run stands where a match begins. -/
structure Before (l : Lexer τ π) (r : SoloRun τ π) (m : MatchStart π) : Prop where
  live : r.status.isLive = true
  closed : r.feed.source.closed = true
  tracks : Engine.Tracks l.rules r.feed r.engine [] m.text
  origin_eq : r.engine.matching.origin = m.state
  start_eq : r.engine.matching.start = m.place
  payloads_eq : r.engine.payloads = m.payloads

/-! ### From one match to the next -/

/-- In the middle of a match the run goes on until the longest one fires. -/
theorem run_fires (hmax : l.config.maxMatch = none) {r : SoloRun τ π} {read ahead : List Char}
    (hlive : r.status.isLive = true) (hclosed : r.feed.source.closed = true)
    (htracks : Engine.Tracks l.rules r.feed r.engine read ahead) (htext : p ++ q = read ++ ahead)
    (hne : p ≠ []) (hwins : l.rules.Wins r.engine.matching.origin (symbols p) i)
    (hbeyond : l.rules.NothingBeyond r.engine.matching.origin (p ++ q) p.length)
    (hfiring : l.rules.fire? r.engine.matching.origin i
      ⟨p, ⟨r.engine.matching.start, r.engine.matching.start.advanceBy p⟩⟩ r.engine.payloads =
        some firing) :
    ∃ k, (r.run l k).Before l
        ⟨firing.next, firing.payloads, r.engine.matching.start.advanceBy p, q⟩ ∧
      (r.run l k).output = applyEffects r.output firing.effects := by
  have hmove := Engine.explains_move l.config htracks
  generalize hmoved : r.engine.move l.rules l.config r.feed = move at hmove
  cases hmove with
  | rest hahead hopen =>
    rw [hclosed] at hopen
    cases hopen
  | @read c left e' f' hahead hreads htracks' horigin hstart hpayloads =>
    subst hahead
    have hstep : r.step l =
        { r with engine := e', feed := f', status := r.status.afterRead e'.replaying } := by
      rw [step, hmoved]
    have hlater : Engine.Tracks l.rules (r.step l).feed (r.step l).engine (read ++ [c]) left := by
      rw [hstep]
      exact htracks'
    obtain ⟨k, hbefore, houtput⟩ := run_fires hmax
      (by rw [hstep]; exact SessionStatus.isLive_afterRead hlive _)
      (by rw [hstep]; exact hreads.closed_eq.trans hclosed) hlater
      (by rw [htext, List.append_assoc, List.singleton_append]) hne
      (by rw [hstep]; exact horigin ▸ hwins) (by rw [hstep]; exact horigin ▸ hbeyond)
      (by rw [hstep]; simp only [horigin, hstart, hpayloads]; exact hfiring)
    refine ⟨k + 1, ?_⟩
    rw [run_succ hlive]
    simp only [hstep, hstart] at hbefore houtput ⊢
    exact ⟨hbefore, houtput⟩
  | @fire p' q' j firing' e' replays htext' hwins' hbeyond' hfiring' htracks' horigin hstart
      hpayloads =>
    obtain ⟨rfl, rfl⟩ := RuleTable.eq_of_nothingBeyond (htext.trans htext'.symm) hbeyond hwins.1
      hbeyond' hwins'.1
    rw [hwins.unique hwins', hfiring'] at hfiring
    obtain rfl := Option.some.inj hfiring
    refine ⟨1, ?_⟩
    rw [run_succ hlive, run, step, hmoved]
    exact ⟨⟨SessionStatus.isLive_afterFire hlive _, hclosed, htracks', horigin, hstart,
      hpayloads⟩, rfl⟩
  | last hahead hclosed' hwins' hfiring' =>
    subst hahead
    rw [htext, List.append_nil] at hbeyond
    exact (hbeyond.whole _ hwins'.1).elim
  | deadEnd hreads hbeyond' =>
    refine (hbeyond'.beginning p ?_ (List.length_pos_of_ne_nil hne) _ hwins.1).elim
    exact ⟨q, htext⟩
  | tooLong hahead hreads hlimit =>
    rw [hmax] at hlimit
    cases hlimit
termination_by ahead.length

namespace Before

/-- The longest match fires, and the next one begins behind it. -/
theorem wins (h : r.Before l ⟨s, payloads, place, p ++ q⟩) (hmax : l.config.maxMatch = none)
    (hne : p ≠ []) (hwins : l.rules.Wins s (symbols p) i)
    (hbeyond : l.rules.NothingBeyond s (p ++ q) p.length)
    (hfiring : l.rules.fire? s i ⟨p, ⟨place, place.advanceBy p⟩⟩ payloads = some firing) :
    ∃ k, (r.run l k).Before l ⟨firing.next, firing.payloads, place.advanceBy p, q⟩ ∧
      (r.run l k).output = applyEffects r.output firing.effects := by
  obtain ⟨hlive, hclosed, htracks, rfl, rfl, rfl⟩ := h
  exact run_fires hmax hlive hclosed htracks (List.nil_append _).symm hne hwins hbeyond hfiring

/-- The first rule that has the longest match fires. -/
theorem fires (h : r.Before l ⟨s, payloads, place, p ++ q⟩) (hmax : l.config.maxMatch = none)
    (hne : p ≠ []) {rule : Rule τ π} (hfirst : l.rules.First s (symbols p) rule)
    (hbeyond : l.rules.NothingBeyond s (p ++ q) p.length) {next : StateId} {out : Outbox τ π}
    (hperform : rule.action.perform ⟨p, ⟨place, place.advanceBy p⟩⟩ payloads = (next, out)) :
    ∃ k, (r.run l k).Before l ⟨next, out.payloads, place.advanceBy p, q⟩ ∧
      (r.run l k).output = applyEffects r.output out.effects := by
  obtain ⟨i, hwins, hfire⟩ := hfirst.wins
  have hfiring := hfire ⟨p, ⟨place, place.advanceBy p⟩⟩ payloads
  rw [hperform] at hfiring
  exact h.wins hmax hne hwins hbeyond hfiring

/-- What the procedure of maximal munch does with the text is what the run comes to. -/
theorem munches {m : MatchStart π} (h : r.Before l m) (hmax : l.config.maxMatch = none) :
    ∃ k fs e, Munches l.rules l.config.preview m.state m.payloads m.place m.text fs e ∧
      (r.run l k).status = .ended e ∧
      (r.run l k).output = (applyEffects r.output (fs.flatMap (·.effects))).close := by
  obtain ⟨hlive, hclosed, htracks, horigin, hstart, hpayloads⟩ := h
  obtain ⟨e, hmunches, hstatus, houtput⟩ :=
    run_munches hmax (movesFor [] m.text) hlive hclosed htracks (Nat.le_refl _)
  rw [horigin, hstart, hpayloads] at hmunches
  exact ⟨_, _, e, hmunches, hstatus, houtput⟩

/-- If no rule has a beginning of the text, the run fails here. -/
theorem stuck (h : r.Before l ⟨s, payloads, place, text⟩) (hmax : l.config.maxMatch = none)
    (hbeyond : l.rules.NothingBeyond s text 0) :
    ∃ k, (r.run l k).status =
      .failed (.deadEnd place (String.ofList (text.take l.config.preview))) := by
  obtain ⟨k, fs, e, hmunches, hstatus, -⟩ := h.munches hmax
  refine ⟨k, hstatus.trans ?_⟩
  cases hmunches with
  | finish hwins => exact (hbeyond.whole _ hwins.1).elim
  | next hwhole htext hne hwins =>
    exact (hbeyond.beginning _ ⟨_, htext⟩ (List.length_pos_of_ne_nil hne) _ hwins.1).elim
  | stuck => rfl

/-- The first rule that has all of the text with the end of the input behind it ends the run. -/
theorem ends (h : r.Before l ⟨s, payloads, place, text⟩) (hmax : l.config.maxMatch = none)
    {rule : Rule τ π} (hfirst : l.rules.First s (symbols text ++ [.endMark]) rule)
    {next : StateId} {out : Outbox τ π}
    (hperform : rule.action.perform ⟨text, ⟨place, place.advanceBy text⟩⟩ payloads =
      (next, out)) :
    ∃ k, (r.run l k).status = .terminated ∧
      (r.run l k).output = (applyEffects r.output out.effects).close := by
  obtain ⟨i, hwins, hfire⟩ := hfirst.wins
  obtain ⟨k, fs, e, hmunches, hstatus, houtput⟩ := h.munches hmax
  refine ⟨k, ?_⟩
  cases hmunches with
  | finish hwins' hfiring =>
    rw [hwins'.unique hwins, hfire, hperform] at hfiring
    obtain rfl := Option.some.inj hfiring
    rw [List.flatMap_singleton] at houtput
    exact ⟨hstatus, houtput⟩
  | next hwhole => exact (hwhole _ hwins.1).elim
  | stuck hwhole => exact (hwhole _ hwins.1).elim

theorem begins {m : MatchStart π} (h : r.Before l m) : r.Begins l m.state m.place where
  live := h.live
  matching_eq := by
    rw [h.tracks.matching_eq, h.origin_eq, h.start_eq]
    rfl
  position_eq := by
    rw [h.tracks.position_eq, h.start_eq]
    rfl

end Before

end SoloRun

namespace Lexer

variable {l : Lexer τ π} {m m' m'' : MatchStart π} {s : StateId} {payloads : Payloads π}
  {place : Position} {p q text : List Char} {a b : List (Effect τ)} {e : LexError}

/-- From the beginning of one match every run comes to that of another, and carries these effects
out on the way. -/
def Leads (l : Lexer τ π) (m : MatchStart π) (effects : List (Effect τ)) (m' : MatchStart π) :
    Prop :=
  ∀ r : SoloRun τ π, r.Before l m →
    ∃ k, (r.run l k).Before l m' ∧ (r.run l k).output = SoloRun.applyEffects r.output effects

/-- From the beginning of the match every run comes to the error. -/
def Fails (l : Lexer τ π) (m : MatchStart π) (e : LexError) : Prop :=
  ∀ r : SoloRun τ π, r.Before l m → ∃ k, (r.run l k).status = .failed e

theorem Leads.refl (m : MatchStart π) : l.Leads m [] m := fun _ h => ⟨0, h, rfl⟩

theorem Leads.trans (h : l.Leads m a m') (h' : l.Leads m' b m'') : l.Leads m (a ++ b) m'' := by
  intro r hbefore
  obtain ⟨j, hbefore', houtput⟩ := h r hbefore
  obtain ⟨k, hbefore'', houtput'⟩ := h' _ hbefore'
  rw [← SoloRun.run_add] at hbefore'' houtput'
  exact ⟨j + k, hbefore'', by rw [houtput', houtput, SoloRun.applyEffects_append]⟩

theorem Leads.fails (h : l.Leads m a m') (h' : l.Fails m' e) : l.Fails m e := by
  intro r hbefore
  obtain ⟨j, hbefore', -⟩ := h r hbefore
  obtain ⟨k, hstatus⟩ := h' _ hbefore'
  rw [← SoloRun.run_add] at hstatus
  exact ⟨j + k, hstatus⟩

theorem leads_of_first (hmax : l.config.maxMatch = none) (hne : p ≠ []) {rule : Rule τ π}
    (hfirst : l.rules.First s (symbols p) rule)
    (hbeyond : l.rules.NothingBeyond s (p ++ q) p.length) {next : StateId} {out : Outbox τ π}
    (hperform : rule.action.perform ⟨p, ⟨place, place.advanceBy p⟩⟩ payloads = (next, out)) :
    l.Leads ⟨s, payloads, place, p ++ q⟩ out.effects
      ⟨next, out.payloads, place.advanceBy p, q⟩ :=
  fun _ hbefore => hbefore.fires hmax hne hfirst hbeyond hperform

theorem fails_of_nothingBeyond (hmax : l.config.maxMatch = none)
    (hbeyond : l.rules.NothingBeyond s text 0) :
    l.Fails ⟨s, payloads, place, text⟩
      (.deadEnd place (String.ofList (text.take l.config.preview))) :=
  fun _ hbefore => hbefore.stuck hmax hbeyond

end Lexer

/-! ### From the start on -/

/-- What is true of the first state and its payloads, and is kept by every rule, is true wherever an
engine has come to. -/
theorem Course.invariant {l : Lexer τ π} {P : StateId → Payloads π → Prop}
    (hstart : P RuleTable.initial .empty)
    (hkeep : ∀ s, ∀ rule ∈ l.rules.rules s, ∀ (m : Matched) (payloads : Payloads π),
      P s payloads →
        P (rule.action.perform m payloads).1 (rule.action.perform m payloads).2.payloads)
    {k : Nat} {moves : List (Move τ π)} {now : Option (Engine π)} {f : Feed Char}
    (h : Course l k moves now f) : ∀ e ∈ now, P e.matching.origin e.payloads := by
  induction h with
  | start =>
    rintro e ⟨rfl⟩
    exact hstart
  | grow h items closing ih => exact ih
  | @move moves e f h ih =>
    obtain ⟨-, -, hcontinues⟩ := h.cutsOff
    obtain ⟨read, ahead, htracks⟩ := (hcontinues e rfl).tracks
    have hnow := ih e rfl
    have hexplains := Engine.explains_move l.config htracks
    generalize e.move l.rules l.config f = move at hexplains
    cases hexplains with
    | rest =>
      rintro e' ⟨rfl⟩
      exact hnow
    | read _ _ _ horigin _ hpayloads =>
      rintro e' ⟨rfl⟩
      rw [horigin, hpayloads]
      exact hnow
    | fire _ _ _ hfiring _ horigin _ hpayloads =>
      rintro e' ⟨rfl⟩
      rw [horigin, hpayloads]
      obtain ⟨rule, hrule, rfl⟩ := Option.map_eq_some_iff.1 hfiring
      exact hkeep _ rule (List.mem_of_getElem? hrule) _ _ hnow
    | last => exact fun e' he => nomatch he
    | deadEnd => exact fun e' he => nomatch he
    | tooLong => exact fun e' he => nomatch he
  | giveUp h ih => exact fun e' he => nomatch he

namespace SoloRun

variable {l : Lexer τ π} {r : SoloRun τ π}

theorem placed_start (l : Lexer τ π) (source : List Char) : (start l source).Placed l :=
  fun _ => ⟨[], source, tracks_start l source⟩

theorem step_reads (h : r.Placed l) (hlive : r.status.isLive = true) :
    r.feed.ReadsTo (r.step l).feed := by
  obtain ⟨read, ahead, htracks⟩ := h hlive
  have hreads := htracks.reads l.config
  rw [step]
  generalize r.engine.move l.rules l.config r.feed = move at hreads
  cases move with
  | rest => exact .refl _
  | read e f => exact hreads
  | fire firing e replays => exact .refl _
  | last firing e => exact .refl _
  | fail error f => exact hreads

theorem run_reads (h : r.Placed l) (n : Nat) : r.feed.ReadsTo (r.run l n).feed := by
  induction n generalizing r with
  | zero => exact .refl _
  | succ n ih =>
    cases hlive : r.status.isLive with
    | false =>
      rw [run_of_stopped hlive]
      exact .refl _
    | true =>
      rw [run_succ hlive]
      exact (step_reads h hlive).trans (ih (h.step hlive))

/-- As long as it is live, the run of a whole text is a course of its engine. -/
theorem course (l : Lexer τ π) (source : List Char) (n : Nat)
    (hlive : ((start l source).run l n).status.isLive = true) :
    ∃ moves, Course l 0 moves (some ((start l source).run l n).engine)
      ((start l source).run l n).feed := by
  induction n with
  | zero => exact ⟨[], .start ⟨Nat.le_refl 0, Nat.le_refl 0⟩⟩
  | succ n ih =>
    rw [run_add] at hlive ⊢
    generalize (start l source).run l n = r at *
    cases hbefore : r.status.isLive with
    | false =>
      rw [run_of_stopped hbefore] at hlive ⊢
      exact ih hlive
    | true =>
      obtain ⟨moves, hcourse⟩ := ih hbefore
      have hnext := hcourse.move
      rw [run_succ hbefore, run, step] at hlive ⊢
      generalize r.engine.move l.rules l.config r.feed = move at hnext hlive ⊢
      cases move with
      | rest => exact ⟨_, hnext⟩
      | read e f => exact ⟨_, hnext⟩
      | fire firing e replays => exact ⟨_, hnext⟩
      | last firing e => cases hlive
      | fail error f => cases hlive

end SoloRun

namespace Lexer.Begins

variable {l : Lexer τ π} {source : List Char} {s : StateId} {payloads : Payloads π}
  {place : Position} {items : List τ}

theorem start (l : Lexer τ π) (source : List Char) :
    l.Begins source RuleTable.initial .empty .start [] :=
  ⟨0, ⟨rfl, rfl, rfl⟩, rfl, rfl⟩

/-- What is still to be matched is what stands in the text behind the place. -/
theorem exists_before (h : l.Begins source s payloads place items) :
    ∃ n, ((SoloRun.start l source).run l n).Before l
        ⟨s, payloads, place, source.drop place.offset⟩ ∧
      ((SoloRun.start l source).run l n).output.queue = items := by
  obtain ⟨n, hbegins, hpayloads, hitems⟩ := h
  have hplaced := (SoloRun.placed_start l source).run n
  have hreads := SoloRun.run_reads (SoloRun.placed_start l source) n
  refine ⟨n, ?_, hitems⟩
  generalize (SoloRun.start l source).run l n = r at *
  obtain ⟨read, ahead, htracks⟩ := hplaced hbegins.live
  have hstart : r.engine.matching.start = place := by
    rw [hbegins.matching_eq]
    rfl
  have hread : read = [] := by
    have hoffset := htracks.position_offset
    rw [hbegins.position_eq, hstart] at hoffset
    exact List.length_eq_zero_iff.1 (by omega)
  have hahead : ahead = source.drop place.offset := by
    have htext := htracks.text_eq
    rw [hread, List.nil_append, hstart, hreads.textFrom_eq] at htext
    exact htext.symm
  subst hread hahead
  exact
    { live := hbegins.live
      closed := hreads.closed_eq
      tracks := htracks
      origin_eq := by rw [hbegins.matching_eq]; rfl
      start_eq := hstart
      payloads_eq := hpayloads }

/-- The place is reached by the text before it. -/
theorem place_eq (h : l.Begins source s payloads place items) :
    place = Position.start.advanceBy (source.take place.offset) := by
  obtain ⟨n, hbegins, -, -⟩ := h
  obtain ⟨moves, hcourse⟩ := SoloRun.course l source n hbegins.live
  have hreads := SoloRun.run_reads (SoloRun.placed_start l source) n
  obtain ⟨-, hcuts, hcontinues⟩ := hcourse.cutsOff
  have hstart := (hcontinues _ rfl).start_eq
  rw [hbegins.matching_eq] at hstart
  have hplace : place = Position.start.advanceBy ((Move.matched moves).flatMap (·.text)) := hstart
  have hbeginning := hcuts.beginning
  rw [hreads.textFrom_eq] at hbeginning
  have hprefix : (Move.matched moves).flatMap (·.text) <+: source := hbeginning
  rw [hplace, Position.offset_advanceBy]
  congr 1
  have hlength : Position.start.offset + ((Move.matched moves).flatMap (·.text)).length =
      ((Move.matched moves).flatMap (·.text)).length := Nat.zero_add _
  rw [hlength]
  exact List.prefix_iff_eq_take.1 hprefix

theorem advanceBy_drop (h : l.Begins source s payloads place items) :
    place.advanceBy (source.drop place.offset) = Position.start.advanceBy source := by
  nth_rewrite 1 [h.place_eq]
  rw [← Position.advanceBy_append, List.take_append_drop]

end Lexer.Begins

/-- What is left of a text behind a part of it. -/
theorem Position.drop_advanceBy {source p q : List Char} {place : Position}
    (h : source.drop place.offset = p ++ q) : source.drop (place.advanceBy p).offset = q := by
  rw [offset_advanceBy, ← List.drop_drop, h, List.drop_left]

namespace Lexer

variable {l : Lexer τ π} {source : List Char} {s : StateId} {payloads : Payloads π}
  {place : Position} {text : List Char} {items : List τ}

theorem begins_of_before {k : Nat}
    (h : ((SoloRun.start l source).run l k).Before l ⟨s, payloads, place, text⟩) :
    l.Begins source s payloads place ((SoloRun.start l source).run l k).output.queue :=
  ⟨k, h.begins, h.payloads_eq, rfl⟩

/-- The moves are enough for lexing the text to come to its end. -/
theorem settled_lastRun (l : Lexer τ π) (source : List Char) : (l.lastRun source).Settled l := by
  have hfuel : SoloRun.movesFor [] source ≤ moveBound source.length := by
    simp only [SoloRun.movesFor, moveBound, List.length_nil, Nat.zero_add]
    nlinarith
  exact SoloRun.run_settles _ rfl (SoloRun.tracks_start l source) hfuel

/-- Once the run has stopped, it is what lexing the text comes to. -/
theorem run_eq_lastRun {k : Nat}
    (hstopped : ((SoloRun.start l source).run l k).status.isLive = false) :
    (SoloRun.start l source).run l k = l.lastRun source :=
  SoloRun.run_eq_of_settled (SoloRun.settled_of_stopped hstopped) (l.settled_lastRun source)

/-- From the place on lexing the text does what the procedure of maximal munch does. -/
theorem Begins.munches (h : l.Begins source s payloads place items)
    (hmax : l.config.maxMatch = none) :
    ∃ fs e, Munches l.rules l.config.preview s payloads place (source.drop place.offset) fs e ∧
      (l.lastRun source).status = .ended e ∧
      (fs = [] → (l.lastRun source).output.queue = items) := by
  obtain ⟨n, hbefore, hitems⟩ := h.exists_before
  obtain ⟨k, fs, e, hmunches, hstatus, houtput⟩ := hbefore.munches hmax
  rw [← SoloRun.run_add] at hstatus houtput
  have hrun : (SoloRun.start l source).run l (n + k) = l.lastRun source := by
    refine run_eq_lastRun ?_
    rw [hstatus]
    cases e with
    | none => rfl
    | some e => rfl
  rw [hrun] at hstatus houtput
  refine ⟨fs, e, hmunches, hstatus, ?_⟩
  rintro rfl
  rw [houtput, ← hitems]
  rfl

/-- Behind the longest match the next one begins. -/
theorem Begins.wins (h : l.Begins source s payloads place items)
    (hmax : l.config.maxMatch = none) {p q : List Char} (htext : source.drop place.offset = p ++ q)
    (hne : p ≠ []) {i : Nat} {firing : Firing τ π} (hwins : l.rules.Wins s (symbols p) i)
    (hbeyond : l.rules.NothingBeyond s (p ++ q) p.length)
    (hfiring : l.rules.fire? s i ⟨p, ⟨place, place.advanceBy p⟩⟩ payloads = some firing) :
    ∃ items', l.Begins source firing.next firing.payloads (place.advanceBy p) items' := by
  obtain ⟨n, hbefore, -⟩ := h.exists_before
  rw [htext] at hbefore
  obtain ⟨k, hbefore', -⟩ := hbefore.wins hmax hne hwins hbeyond hfiring
  rw [← SoloRun.run_add] at hbefore'
  exact ⟨_, begins_of_before hbefore'⟩

theorem Begins.tokenize_of_fails (h : l.Begins source s payloads place items) {e : LexError}
    (hfails : l.Fails ⟨s, payloads, place, source.drop place.offset⟩ e) :
    l.tokenize source = .error e := by
  obtain ⟨n, hbefore, -⟩ := h.exists_before
  obtain ⟨k, hstatus⟩ := hfails _ hbefore
  rw [← SoloRun.run_add] at hstatus
  have hrun : (SoloRun.start l source).run l (n + k) = l.lastRun source :=
    run_eq_lastRun (by rw [hstatus]; rfl)
  rw [hrun] at hstatus
  rw [tokenize, hstatus]
  rfl

/-- A dead end at the end of what is left of the text is one at the end of the whole text. -/
theorem Begins.tokenize_of_fails_at_end (h : l.Begins source s payloads place items)
    (htext : source.drop place.offset = text) {preview : String}
    (hfails : l.Fails ⟨s, payloads, place, text⟩ (.deadEnd (place.advanceBy text) preview)) :
    l.tokenize source = .error (.deadEnd (Position.start.advanceBy source) preview) := by
  rw [← htext, h.advanceBy_drop] at hfails
  exact h.tokenize_of_fails hfails

end Lexer

end DerivativeLexer
