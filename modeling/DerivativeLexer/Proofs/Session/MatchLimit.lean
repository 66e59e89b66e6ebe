import DerivativeLexer.Proofs.Session.Lifecycle
import DerivativeLexer.Proofs.Session.Moving

/-! # The limit on a match

A match in progress is refused as soon as it holds more characters than the limit. The engine looks
at this right after it has read a character, before it sees whether any rule goes on with it, so
the character that ends a match counts, too. What stops an engine is therefore that a match in
progress has reached the limit, is not decided by then, and is followed by one more character,
whatever that is. A word that is as long as the limit is refused when something is behind it. -/

namespace DerivativeLexer

open DerivativeLexer.Language (symbols)

variable {τ π : Type}

/-! ### Engines -/

/-- The match in progress has as many characters as the limit allows, some rule is still alive and
none is settled, and the reader has drawn one character more. -/
structure Engine.Overruns (l : Lexer τ π) (e : Engine π) (r : Reader Char)
    (limit line column : Nat) : Prop where
  limit_eq : l.config.maxMatch = some limit
  line_eq : e.matching.start.line = line
  column_eq : e.matching.start.column = column
  undecided : ∃ read c, read.length = limit ∧
    r.between e.matching.start.offset (e.matching.start.offset + (limit + 1)) = read ++ [c] ∧
    (∃ v i, l.rules.Matches e.matching.origin (symbols read ++ v) i) ∧
    (Matching.after l.rules e.matching.origin e.matching.start (symbols read)).settled = false

namespace Engine

section

variable {t : RuleTable τ π} {config : LexerConfig} {f f' : Feed Char} {e : Engine π}
  {read ahead : List Char} {limit line column : Nat}

theorem fireAt_ne_tooLong (m : Matching) (stop : Position) (replays : Bool) :
    e.fireAt t config f m stop replays ≠ .fail (.matchTooLong limit line column) f' := by
  intro h
  unfold fireAt at h
  split at h
  · cases h
  · cases h

theorem backtrack_ne_tooLong :
    e.backtrack t config f ≠ .fail (.matchTooLong limit line column) f' := by
  intro h
  unfold backtrack at h
  split at h
  · cases h
  · exact fireAt_ne_tooLong _ _ _ h

theorem finish_ne_tooLong :
    e.finish t config f ≠ .fail (.matchTooLong limit line column) f' := by
  intro h
  simp only [finish] at h
  split_ifs at h
  · split at h
    · cases h
    · cases h
  · exact backtrack_ne_tooLong h

theorem exceeds_grown (h : Tracks t f e read ahead) (c : Char) :
    exceeds config
      { e with
        matching := e.matching.derive (.char c)
        position := e.position.advance c
        frontier := max e.frontier (e.position.advance c).offset } =
      config.maxMatch.filter fun limit => limit < read.length + 1 := by
  have hgrown : (e.position.advance c).offset - e.matching.start.offset = read.length + 1 := by
    have hoffset := h.position_offset
    rw [Position.offset_advance]
    omega
  simp only [exceeds, Matching.derive, hgrown]

/-- A match is refused when a character is read behind as many as the limit allows. -/
theorem advance_eq_tooLong_iff (h : Tracks t f e read ahead) :
    e.advance t config f = .fail (.matchTooLong limit line column) f' ↔
      ∃ c, f.head? e.position.offset = some (c, f') ∧ config.maxMatch = some limit ∧
        limit < read.length + 1 ∧ e.matching.start.line = line ∧
        e.matching.start.column = column := by
  unfold advance
  split_ifs with hended
  · refine ⟨fun hmove => (finish_ne_tooLong hmove).elim, ?_⟩
    rintro ⟨c, hhead, -⟩
    have hplugged := Bool.and_elim_left hended
    rw [Feed.head?_eq_none_iff.2 hplugged] at hhead
    cases hhead
  · cases hhead : f.head? e.position.offset with
    | none => simp
    | some taken =>
      obtain ⟨c, next⟩ := taken
      simp only [absorb, exceeds_grown h]
      cases hfilter : config.maxMatch.filter fun limit => limit < read.length + 1 with
      | none =>
        simp only [Option.filter_eq_none_iff, decide_eq_true_iff] at hfilter
        constructor
        · intro hmove
          cases hmove
        · rintro ⟨_, -, hmax, hlt, -⟩
          exact (hfilter limit hmax hlt).elim
      | some refused =>
        simp only [Option.filter_eq_some_iff, decide_eq_true_iff] at hfilter
        obtain ⟨hmax, hlt⟩ := hfilter
        simp only [Move.fail.injEq, LexError.matchTooLong.injEq, Option.some_inj, Prod.mk.injEq,
          hmax]
        constructor
        · rintro ⟨⟨rfl, rfl, rfl⟩, rfl⟩
          exact ⟨c, ⟨rfl, rfl⟩, rfl, hlt, rfl, rfl⟩
        · rintro ⟨_, ⟨-, rfl⟩, rfl, -, rfl, rfl⟩
          exact ⟨⟨rfl, rfl, rfl⟩, rfl⟩

/-- One more character leaves a rule alive. -/
theorem Tracks.grows_iff {c : Char} (h : Tracks t f e read ahead) :
    (∃ v i, t.Matches e.matching.origin (symbols (read ++ [c]) ++ v) i) ↔
      (e.matching.derive (.char c)).rejects = false := by
  have hderive : e.matching.derive (.char c) =
      .after t e.matching.origin e.matching.start (symbols (read ++ [c])) := by
    rw [symbols_append, show symbols [c] = [.char c] from rfl, Matching.after_snoc,
      ← h.matching_eq]
  rw [hderive, ← Bool.not_eq_true, Matching.rejects_after]
  simp only [not_forall, not_not]

/-- What is accepted is not hopeless. -/
theorem Tracks.not_rejects (h : Tracks t f e read ahead) (haccepts : e.matching.accepts = true) :
    e.matching.rejects = false := by
  rw [← Bool.not_eq_true]
  intro hrejects
  obtain ⟨i, hi⟩ := h.accepts_iff.1 haccepts
  rw [h.matching_eq, Matching.rejects_after] at hrejects
  exact hrejects [] i (by rwa [List.append_nil])

/-- A match is refused exactly when it has reached the limit, is neither settled nor hopeless, and
there is one more character to read. -/
theorem move_eq_tooLong_iff (h : Tracks t f e read ahead) :
    e.move t config f = .fail (.matchTooLong limit line column) f' ↔
      (∃ c, f.head? e.position.offset = some (c, f')) ∧ config.maxMatch = some limit ∧
        limit < read.length + 1 ∧ e.matching.start.line = line ∧
        e.matching.start.column = column ∧ e.matching.settled = false ∧
        e.matching.rejects = false := by
  have hadvance : e.advance t config f = .fail (.matchTooLong limit line column) f' ↔ _ :=
    advance_eq_tooLong_iff h
  unfold move
  split_ifs with hsettled haccepts hrejects
  · refine ⟨fun hmove => (fireAt_ne_tooLong _ _ _ hmove).elim, ?_⟩
    rintro ⟨-, -, -, -, -, hnot, -⟩
    rw [hsettled] at hnot
    cases hnot
  · have hmark : e.mark.advance t config f = .fail (.matchTooLong limit line column) f' ↔ _ :=
      advance_eq_tooLong_iff (h.mark haccepts).1
    rw [hmark]
    have hlive := h.not_rejects haccepts
    simp only [Bool.not_eq_true] at hsettled
    constructor
    · rintro ⟨c, hhead, hmax, hlt, hline, hcolumn⟩
      exact ⟨⟨c, hhead⟩, hmax, hlt, hline, hcolumn, hsettled, hlive⟩
    · rintro ⟨⟨c, hhead⟩, hmax, hlt, hline, hcolumn, -, -⟩
      exact ⟨c, hhead, hmax, hlt, hline, hcolumn⟩
  · refine ⟨fun hmove => (backtrack_ne_tooLong hmove).elim, ?_⟩
    rintro ⟨-, -, -, -, -, -, hnot⟩
    rw [hrejects] at hnot
    cases hnot
  · rw [hadvance]
    simp only [Bool.not_eq_true] at hsettled hrejects
    constructor
    · rintro ⟨c, hhead, hmax, hlt, hline, hcolumn⟩
      exact ⟨⟨c, hhead⟩, hmax, hlt, hline, hcolumn, hsettled, hrejects⟩
    · rintro ⟨⟨c, hhead⟩, hmax, hlt, hline, hcolumn, -, -⟩
      exact ⟨c, hhead, hmax, hlt, hline, hcolumn⟩

end

section

variable {l : Lexer τ π} {f f' : Feed Char} {e : Engine π} {read ahead : List Char}
  {limit line column : Nat}

/-- The match in progress has not grown past the limit. -/
def Within (l : Lexer τ π) (e : Engine π) : Prop :=
  ∀ limit, l.config.maxMatch = some limit → e.position.offset ≤ e.matching.start.offset + limit

theorem overruns_of_move (h : Tracks l.rules f e read ahead) (hwithin : e.Within l)
    (hmove : e.move l.rules l.config f = .fail (.matchTooLong limit line column) f') :
    e.Overruns l f'.reader limit line column := by
  obtain ⟨⟨c, hhead⟩, hmax, hlt, hline, hcolumn, hsettled, hrejects⟩ :=
    (move_eq_tooLong_iff h).1 hmove
  have hoffset := h.position_offset
  have hlength : read.length = limit := by
    have hle := hwithin limit hmax
    omega
  -- the character behind the match in progress is the first one ahead
  obtain ⟨left, rfl⟩ : ∃ left, ahead = c :: left := by
    have hfirst := Feed.head?_fst h.reached_position
    rw [hhead, h.textFrom_position, Option.map_some] at hfirst
    exact List.head?_eq_some_iff.1 hfirst.symm
  obtain ⟨g, hg, hreads, hreach⟩ := Feed.head?_of_textFrom_cons h.reached_position
    h.textFrom_position
  obtain ⟨-, rfl⟩ := Prod.mk.inj (Option.some.inj (hg.symm.trans hhead))
  refine ⟨hmax, hline, hcolumn, read, c, hlength, ?_, ?_, ?_⟩
  · have hstart : g.reader.start ≤ e.matching.start.offset := by
      rw [hreads.start_eq]
      exact h.start_le
    rw [Feed.between_eq hstart (by omega), hreads.textFrom_eq, h.text_eq, Nat.add_sub_cancel_left,
      ← hlength, List.take_length_add_append]
    rfl
  · rw [h.matching_eq, ← Bool.not_eq_true, Matching.rejects_after] at hrejects
    simpa using hrejects
  · rw [← h.matching_eq]
    exact hsettled

theorem within_start (l : Lexer τ π) (offset : Nat) : (start l.rules offset).Within l :=
  fun limit _ => Nat.le_add_right offset limit

theorem within_of_read {e' : Engine π} (h : Tracks l.rules f e read ahead)
    (hmove : e.move l.rules l.config f = .read e' f') : e'.Within l := by
  have hexplains := explains_move l.config h
  rw [hmove] at hexplains
  cases hexplains with
  | read hahead hreads htracks horigin hstart hpayloads hlimit =>
    intro limit hmax
    have hle := hlimit limit hmax
    have hoffset := htracks.position_offset
    rw [List.length_append, List.length_singleton] at hoffset
    omega

theorem within_of_fire {e' : Engine π} {firing : Firing τ π} {replays : Bool}
    (h : Tracks l.rules f e read ahead)
    (hmove : e.move l.rules l.config f = .fire firing e' replays) : e'.Within l := by
  have hexplains := explains_move l.config h
  rw [hmove] at hexplains
  cases hexplains with
  | fire htext hwins hbeyond hfiring htracks =>
    intro limit _
    rw [htracks.position_offset]
    exact Nat.le_add_right _ limit

theorem last_ne_backtrack {e' : Engine π} {firing : Firing τ π} (t : RuleTable τ π)
    (config : LexerConfig) : e.backtrack t config f ≠ .last firing e' := by
  intro h
  rcases backtrack_cases t config e f with ⟨error, feed, hfail⟩ | ⟨firing, e'', m, hfire, -⟩
  · cases hfail.symm.trans h
  · cases hfire.symm.trans h

theorem same_of_last_advance {t : RuleTable τ π} {config : LexerConfig} {e' : Engine π}
    {firing : Firing τ π} (h : e.advance t config f = .last firing e') :
    e'.matching = e.matching ∧ e'.position = e.position ∧ e'.frontier = e.frontier := by
  unfold advance at h
  split_ifs at h
  · simp only [finish] at h
    split_ifs at h
    · split at h
      · cases h
      · obtain ⟨-, rfl⟩ := Move.last.inj h
        exact ⟨rfl, rfl, rfl⟩
    · exact (last_ne_backtrack t config h).elim
  · split at h
    next c next hhead =>
      rcases absorb_cases τ config e next c with ⟨error, feed, hfail⟩ | ⟨e'', hread, -⟩
      · cases hfail.symm.trans h
      · cases hread.symm.trans h
    next => cases h

theorem same_of_last {t : RuleTable τ π} {config : LexerConfig} {e' : Engine π}
    {firing : Firing τ π} (h : e.move t config f = .last firing e') :
    e'.matching = e.matching ∧ e'.position = e.position ∧ e'.frontier = e.frontier := by
  unfold move at h
  split_ifs at h
  · rcases fireAt_cases t config e f e.matching e.position false with
      ⟨error, feed, hfail⟩ | ⟨firing, e'', hfire, -⟩
    · cases hfail.symm.trans h
    · cases hfire.symm.trans h
  · exact same_of_last_advance (e := e.mark) h
  · exact (last_ne_backtrack t config h).elim
  · exact same_of_last_advance h

end

end Engine

/-! ### Sessions -/

/-- The match in progress of a session is within the limit, and if the session has failed or is
about to fail because of the limit, its engine has overrun it. -/
structure Session.Limited (l : Lexer τ π) (x : Nat) (σ : Session τ π) (agenda : List (Task τ)) :
    Prop where
  within : σ.engine.Within l
  overruns : ∀ limit line column,
    σ.status = .failed (.matchTooLong limit line column) ∨
        .finish x (.failed (.matchTooLong limit line column)) ∈ agenda →
      σ.engine.Overruns l σ.reader limit line column

section

variable {l : Lexer τ π} {n m : Network τ π} {x : Nat} {σ σ' : Session τ π} {task : Task τ}
  {rest added : List (Task τ)}

namespace Session.Limited

/-- A session that goes on after a task has not failed. -/
theorem of_live (hwithin : σ'.engine.Within l) (hlive : σ'.status.isLive = true)
    (hadded : ∀ error, .finish x (.failed error) ∉ added)
    (hown : Task.own x rest = []) : σ'.Limited l x (added ++ rest) := by
  refine ⟨hwithin, fun limit line column hfailed => ?_⟩
  rcases hfailed with hstatus | hmem
  · rw [hstatus] at hlive
    cases hlive
  · rcases List.mem_append.1 hmem with hmem | hmem
    · exact (hadded _ hmem).elim
    · exact (Network.finish_not_mem_of_own hown _ hmem).elim

theorem turn_drain (h : σ.Limited n.lexer x (.drain x :: rest))
    (hstage : Stage n.lexer x σ (.drain x :: rest))
    (hturn : Network.Turn n x σ (.drain x) σ' added) : σ'.Limited n.lexer x (added ++ rest) := by
  obtain ⟨hown, hbusy, hreading⟩ := hstage.of_drain
  have hfeed : Engine.Placed n.lexer.rules
      (⟨(n.source? σ.input).getD .fresh, σ.reader⟩ : Feed Char).reader σ.engine := hreading.placed
  obtain ⟨read, ahead, htracks⟩ := hfeed.tracks
  have hacts : ∀ (effects : List (Effect τ)) {last : Task τ},
      (∀ error, last ≠ .finish x (.failed error)) →
      ∀ error, .finish x (.failed error) ∉ effects.map (Network.effectTask x) ++ [last] := by
    intro effects last hlast error hmem
    rcases List.mem_append.1 hmem with hmem | hmem
    · exact Network.finish_not_mem_effects effects _ hmem
    · exact hlast error (List.mem_singleton.1 hmem).symm
  cases hturn with
  | elsewhere howner => exact (howner rfl).elim
  | halts => exact of_live h.within hreading.live (by simp) hown
  | heeds hlive => exact of_live h.within hlive (by simp) hown
  | rests hlive => exact of_live h.within hlive (by simp) hown
  | reads hlive hcancelled hmove =>
    exact of_live (Engine.within_of_read htracks hmove) (SessionStatus.isLive_afterRead hlive _)
      (by simp) hown
  | fires hlive hcancelled hmove =>
    exact of_live (Engine.within_of_fire htracks hmove) hlive (hacts _ (by simp)) hown
  | ends hlive hcancelled hmove =>
    obtain ⟨hmatching, hposition, -⟩ := Engine.same_of_last hmove
    refine of_live (fun limit hmax => ?_) hlive (hacts _ (by simp)) hown
    rw [hmatching, hposition]
    exact h.within limit hmax
  | @fails error feed hlive hcancelled hmove =>
    refine ⟨h.within, fun limit line column hfailed => ?_⟩
    rcases hfailed with hstatus | hmem
    · rw [hstatus] at hlive
      cases hlive
    · rcases List.mem_append.1 hmem with hmem | hmem
      · obtain ⟨-, hstatus⟩ := Task.finish.inj (List.mem_singleton.1 hmem)
        obtain rfl := SessionStatus.failed.inj hstatus
        exact Engine.overruns_of_move htracks h.within hmove
      · exact (Network.finish_not_mem_of_own hown _ hmem).elim

theorem turn_finish {status : SessionStatus} (h : σ.Limited n.lexer x (.finish x status :: rest))
    (hstage : Stage n.lexer x σ (.finish x status :: rest))
    (hturn : Network.Turn n x σ (.finish x status) σ' added) :
    σ'.Limited n.lexer x (added ++ rest) := by
  obtain ⟨hown, -⟩ := hstage.of_finish
  cases hturn with
  | elsewhere howner => exact (howner rfl).elim
  | finishes =>
    refine ⟨h.within, fun limit line column hfailed => ?_⟩
    obtain ⟨hlimit, hline, hcolumn, hundecided⟩ := h.overruns limit line column <| by
      rcases hfailed with rfl | hmem
      · exact .inr List.mem_cons_self
      · rcases List.mem_append.1 hmem with hmem | hmem
        · split_ifs at hmem
          · cases List.mem_singleton.1 hmem
          · rcases List.mem_pair.1 hmem with hmem | hmem
            · cases hmem
            · cases hmem
        · exact (Network.finish_not_mem_of_own hown _ hmem).elim
    exact ⟨hlimit, hline, hcolumn, hundecided⟩

theorem turn (h : σ.Limited n.lexer x (task :: rest)) (hstage : Stage n.lexer x σ (task :: rest))
    (hturn : Network.Turn n x σ task σ' added) : σ'.Limited n.lexer x (added ++ rest) := by
  by_cases hdrain : task = .drain x
  · subst hdrain
    exact h.turn_drain hstage hturn
  by_cases hfinish : ∃ status, task = .finish x status
  · obtain ⟨status, rfl⟩ := hfinish
    exact h.turn_finish hstage hturn
  obtain ⟨hengine, hreader, hlive, -, hadded⟩ :=
    hturn.leaves hstage hdrain fun status htask => hfinish ⟨status, htask⟩
  refine ⟨?_, fun limit line column hfailed => ?_⟩
  · rw [hengine]
    exact h.within
  · rw [hengine, hreader]
    apply h.overruns
    rcases hfailed with hstatus | hmem
    · have hstopped : σ.status.isLive = false := by
        rw [← hlive, hstatus]
        rfl
      rw [← hstatus]
      exact .inl (hstage.turn_stopped hstopped hturn).1.symm
    · rcases List.mem_append.1 hmem with hmem | hmem
      · exact (hadded _ hmem).elim
      · exact .inr (List.mem_cons_of_mem _ hmem)

end Session.Limited

theorem Network.Reachable.limited (h : n.Reachable l) (hσ : n.session? x = some σ) :
    σ.Limited n.lexer x n.agenda := by
  refine h.follow (P := fun n σ => σ.Limited n.lexer x n.agenda) ?_ ?_ hσ
  · intro m t offset reader hagenda _ _
    have hnone : Task.own x m.agenda = [] := by
      rw [hagenda]
      rfl
    exact .of_live (Engine.within_start m.lexer offset) rfl (by simp) hnone
  · intro m m' σ σ' e hreachable hσ hlimited hevent _ hpasses
    rw [hevent.lexer_eq]
    cases hpasses with
    | @turn _ _ rest _ _ _ hagenda hturn hadded =>
      have hstage := hreachable.stage hσ
      rw [hagenda] at hstage hlimited
      rw [hadded]
      exact Session.Limited.turn (n := { m with agenda := rest }) hlimited hstage hturn
    | aside _ hadded hforeign _ =>
      refine ⟨hlimited.within, fun limit line column hfailed => hlimited.overruns _ _ _ ?_⟩
      refine hfailed.imp_right fun hmem => ?_
      rw [hadded] at hmem
      exact (List.mem_append.1 hmem).resolve_left (finish_not_mem hforeign _)

end

/-- A session fails because of the limit only after it has read as many characters as the limit
allows, with a rule still alive, and one more. And whenever a match in progress has reached the
limit and is neither settled nor hopeless, the next character makes the engine fail; the match has
grown past the limit only if that character leaves a rule alive. -/
theorem match_limit_reached (l : Lexer τ π) :
    (∀ {n : Network τ π} {x : Nat} {σ : Session τ π} {limit line column : Nat}, n.Reachable l →
        n.session? x = some σ → σ.status = .failed (.matchTooLong limit line column) →
          σ.engine.Overruns l σ.reader limit line column) ∧
      ∀ {f : Feed Char} {e : Engine π} {read left : List Char} {c : Char} {limit : Nat},
        Engine.Tracks l.rules f e read (c :: left) → l.config.maxMatch = some limit →
          limit ≤ read.length → e.matching.settled = false → e.matching.rejects = false →
            (∃ f', e.move l.rules l.config f =
              .fail (.matchTooLong limit e.matching.start.line e.matching.start.column) f') ∧
            ((∃ v i, l.rules.Matches e.matching.origin (symbols (read ++ [c]) ++ v) i) ↔
              (e.matching.derive (.char c)).rejects = false) := by
  refine ⟨fun h hσ hfailed => ?_, fun htracks hmax hlimit hsettled hrejects => ⟨?_, ?_⟩⟩
  · have hoverruns := (h.limited hσ).overruns _ _ _ (.inl hfailed)
    rwa [h.lexer_eq] at hoverruns
  · obtain ⟨f', hhead, -, -⟩ := Feed.head?_of_textFrom_cons htracks.reached_position
      htracks.textFrom_position
    exact ⟨f', (Engine.move_eq_tooLong_iff htracks).2
      ⟨⟨_, hhead⟩, hmax, Nat.lt_succ_of_le hlimit, rfl, rfl, hsettled, hrejects⟩⟩
  · exact htracks.grows_iff

/-! ### A word as long as the limit -/

def KLisp.brief : Lexer Token StringBody := ⟨rules, ⟨some 4, 16⟩, sample.productive⟩

namespace Network

def reciting : Network Token StringBody :=
  (((fresh KLisp.brief).addSource .fresh).2.openSession 0 0 60).2

/-- The word is as long as the limit, and a blank ends it. -/
def recited : Network Token StringBody := reciting.ask (.source (.push 0 "abcd e".toList)) 60

/-- The word alone, before it is known what follows. -/
def paused : Network Token StringBody := reciting.ask (.source (.push 0 "abcd".toList)) 60

theorem reachable_ask_reciting (r : Request) : (reciting.ask r 60).Reachable KLisp.brief := by
  obtain ⟨opening, hopening⟩ : ∃ trace, ((fresh KLisp.brief).addSource .fresh).2.Runs trace
      reciting := exists_runs_openSession rfl (by decide +kernel)
  obtain ⟨asking, hasking⟩ : ∃ trace, reciting.Runs trace (reciting.ask r 60) :=
    exists_runs_ask (by decide +kernel) _ 60
  exact Reachable.runs ⟨_, (Runs.one (.addSource _)).trans hopening⟩ hasking

theorem exists_session_recited : ∃ σ, recited.session? 0 = some σ ∧
    σ.status = .failed (.matchTooLong 4 1 1) ∧ σ.engine.matching.origin = RuleTable.initial ∧
    σ.engine.matching.start = .start ∧ σ.reader.between 0 5 = "abcd ".toList := by
  obtain ⟨σ, hσ⟩ : ∃ σ, recited.session? 0 = some σ :=
    ⟨_, (Option.some_get (by decide +kernel)).symm⟩
  have hfacts : (recited.session? 0).map (fun σ => (σ.status, σ.engine.matching.origin,
      σ.engine.matching.start, σ.reader.between 0 5)) =
        some (.failed (.matchTooLong 4 1 1), RuleTable.initial, .start, "abcd ".toList) := by
    decide +kernel
  rw [hσ, Option.map_some, Option.some_inj, Prod.mk.injEq, Prod.mk.injEq, Prod.mk.injEq] at hfacts
  exact ⟨σ, hσ, hfacts⟩

/-- The engine of the session that has read the word, with the rest of the text still to come. -/
theorem exists_tracks_paused : ∃ σ, paused.session? 0 = some σ ∧
    Engine.Tracks KLisp.rules ⟨⟨[' ', 'e'], 4, false⟩, σ.reader⟩ σ.engine "abcd".toList
      [' ', 'e'] ∧
    σ.engine.matching.start = .start ∧ σ.engine.matching.settled = false ∧
    σ.engine.matching.rejects = false ∧ (σ.engine.matching.derive (.char ' ')).rejects = true := by
  obtain ⟨σ, hσ⟩ : ∃ σ, paused.session? 0 = some σ :=
    ⟨_, (Option.some_get (by decide +kernel)).symm⟩
  have hplace : (paused.session? 0).map (fun σ => (σ.status, σ.reader, σ.engine.position.offset,
      σ.engine.matching.start)) =
        some (.stepping, ⟨0, "abcd".toList.toArray⟩, 4, .start) := by decide +kernel
  have hrules : (paused.session? 0).map (fun σ => (σ.engine.matching.settled,
      σ.engine.matching.rejects, (σ.engine.matching.derive (.char ' ')).rejects)) =
        some (false, false, true) := by decide +kernel
  rw [hσ, Option.map_some, Option.some_inj, Prod.mk.injEq, Prod.mk.injEq] at hplace hrules
  obtain ⟨hstatus, hreader, hposition⟩ := hplace
  obtain ⟨hoffset, hstart⟩ := Prod.mk.inj hposition
  have hagenda : paused.agenda = [] := by decide +kernel
  have hstage : Stage paused.lexer 0 σ paused.agenda := (reachable_ask_reciting _).stage hσ
  rw [hagenda] at hstage
  rcases hstage.at_rest with ⟨-, hcalm⟩ | ⟨-, hfinal, -⟩
  · obtain ⟨read, ahead, htracks⟩ :=
      hcalm.placed.tracks (f := ⟨⟨[' ', 'e'], 4, false⟩, σ.reader⟩)
    have htext := htracks.text_eq
    have hahead := htracks.textFrom_position
    rw [hreader, hoffset] at hahead
    obtain rfl : [' ', 'e'] = ahead := hahead
    rw [hreader, hstart] at htext
    obtain rfl : "abcd".toList = read := List.append_cancel_right htext
    exact ⟨σ, hσ, htracks, hstart, hrules⟩
  · rw [hstatus] at hfinal
    cases hfinal

end Network

/-- The word of four letters is refused with the limit four, because of the blank behind it. And
once the word was read, the blank makes the engine fail although it leaves no rule alive. -/
theorem match_limit_reached_sample :
    (∃ σ, Network.recited.session? 0 = some σ ∧ σ.status = .failed (.matchTooLong 4 1 1) ∧
      σ.engine.Overruns KLisp.brief σ.reader 4 1 1) ∧
    ∃ σ, Network.paused.session? 0 = some σ ∧
      (∃ f', σ.engine.move KLisp.rules KLisp.brief.config ⟨⟨[' ', 'e'], 4, false⟩, σ.reader⟩ =
        .fail (.matchTooLong 4 1 1) f') ∧
      ¬∃ v i, KLisp.rules.Matches σ.engine.matching.origin
        (symbols ("abcd".toList ++ [' ']) ++ v) i := by
  obtain ⟨hsessions, hengines⟩ := match_limit_reached KLisp.brief
  obtain ⟨σ, hσ, hstatus, -⟩ := Network.exists_session_recited
  obtain ⟨σ', hσ', htracks, hstart, hsettled, hrejects, hdead⟩ := Network.exists_tracks_paused
  obtain ⟨hfails, hgrows⟩ := hengines htracks rfl (Nat.le_refl 4) hsettled hrejects
  rw [hstart] at hfails
  refine ⟨⟨σ, hσ, hstatus, hsessions (Network.reachable_ask_reciting _) hσ hstatus⟩, σ', hσ',
    hfails, fun halive => ?_⟩
  rw [hgrows.1 halive] at hdead
  cases hdead

/-- It is not so that a session that fails because of the limit has a rule alive behind one
character more than the limit allows: behind the word and the blank there is none. -/
theorem match_limit_not_spared :
    ¬∀ (l : Lexer Token StringBody) (n : Network Token StringBody) (x : Nat)
      (σ : Session Token StringBody) (limit line column : Nat), n.Reachable l →
        n.session? x = some σ → σ.status = .failed (.matchTooLong limit line column) →
          ∃ v i, l.rules.Matches σ.engine.matching.origin
            (symbols (σ.reader.between σ.engine.matching.start.offset
              (σ.engine.matching.start.offset + (limit + 1))) ++ v) i := by
  intro h
  obtain ⟨σ, hσ, hstatus, horigin, hstart, hbetween⟩ := Network.exists_session_recited
  obtain ⟨v, i, hi⟩ := h KLisp.brief _ 0 σ 4 1 1 (Network.reachable_ask_reciting _) hσ hstatus
  have hread : σ.reader.between (Position.start).offset ((Position.start).offset + (4 + 1)) =
      "abcd ".toList := hbetween
  rw [horigin, hstart, hread] at hi
  have hdead : (Matching.after KLisp.rules RuleTable.initial .start
      (symbols "abcd ".toList)).rejects = true := by decide +kernel
  exact Matching.rejects_after.1 hdead v i hi

end DerivativeLexer
