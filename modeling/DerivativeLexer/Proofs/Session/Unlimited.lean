import DerivativeLexer.Proofs.Lexer.Unlimited
import DerivativeLexer.Proofs.Session.Cancellation
import DerivativeLexer.Proofs.Session.MatchLimit
import DerivativeLexer.Proofs.Session.Tiling

/-! # What the limit changes for a session

Two sessions with the same rules get the same input by the same calls, one with a limit on its
matches and one without. Up to where the limit stops the one, the other does the same. And a
session that is stopped by its limit has put out what its matches so far have emitted, and tells
where the last of them ended. -/

namespace DerivativeLexer

variable {τ π : Type}

/-! ### Histories by calls -/

/-- A call on the source of a session. -/
inductive SourceCall where
  | push (text : List Char)
  | close

namespace SourceCall

def request (s : Nat) : SourceCall → Request
  | push text => .source (.push s text)
  | close => .source (.close s)

def items : SourceCall → List Char
  | push text => text
  | close => []

def closing : SourceCall → Bool
  | push _ => false
  | close => true

end SourceCall

/-- A history of a session `x` on the source `s` with the calls on the source that it consists of,
the latest first. The session starts behind the first `skip` characters of `source`. Other things
may happen between the calls, and every call has returned when the next one is made. The session is
the one at `x` now, or as it was last seen there if it failed on what was there when it started. -/
inductive Called (l : Lexer τ π) (s skip : Nat) (source : Source Char) :
    (x : Nat) → List SourceCall → Network τ π → Session τ π → Prop
  | opened {n m : Network τ π} {x fuel : Nat} {σ : Session τ π} (hlexer : n.lexer = l)
      (hagenda : n.agenda = []) (hsource : n.source? s = some source)
      (hapart : n.Apart s n.sessions.size) (hstart : n.start s skip fuel = (.ok x, m))
      (hreturns : m.agenda = []) (hσ : m.session? x = some σ) :
      Called l s skip source x [] (n.openSession s skip fuel).2 σ
  | call {n : Network τ π} {x : Nat} {calls : List SourceCall} {σ : Session τ π}
      (h : Called l s skip source x calls n σ) (c : SourceCall) (fuel : Nat)
      (hreturns : (n.ask (c.request s) fuel).agenda = []) :
      Called l s skip source x (c :: calls) (n.ask (c.request s) fuel)
        (((n.ask (c.request s) fuel).session? x).getD σ)
  | elsewhere {n n' : Network τ π} {x : Nat} {calls : List SourceCall} {σ : Session τ π}
      (h : Called l s skip source x calls n σ) (helse : n.Elsewhere s x n') :
      Called l s skip source x calls n' ((n'.session? x).getD σ)

/-- What an engine by itself comes to that gets its input by these calls, the latest first. It has
settled when the next call is made. -/
inductive Answers (l : Lexer τ π) (skip : Nat) (source : Source Char) :
    List SourceCall → SoloRun τ π → Prop
  | opened {start : SoloRun τ π} {k : Nat} (hopening : SoloRun.opening? l source skip = some start)
      (hsettled : (start.run l k).Settled l) : Answers l skip source [] (start.run l k)
  | call {calls : List SourceCall} {run : SoloRun τ π} {k : Nat}
      (h : Answers l skip source calls run) (c : SourceCall)
      (hsettled : ((run.grow c.items c.closing).run l k).Settled l) :
      Answers l skip source (c :: calls) ((run.grow c.items c.closing).run l k)

section

variable {l : Lexer τ π} {s skip x : Nat} {source : Source Char} {calls : List SourceCall}
  {n : Network τ π} {σ : Session τ π} {run run' : SoloRun τ π}

theorem Network.Idles.settle_call (h : n.Idles s x run) (c : SourceCall) {fuel : Nat}
    (hreturns : ((n.grant (c.request s)).settle fuel).agenda = []) :
    ∃ j, ((run.grow c.items c.closing).run n.lexer j).Settled n.lexer ∧
      ((n.grant (c.request s)).settle fuel).Idles s x
        ((run.grow c.items c.closing).run n.lexer j) := by
  cases c with
  | push text => exact h.settle_push text hreturns
  | close => exact h.settle_close hreturns

theorem Called.shows (h : Called l s skip source x calls n σ) :
    Shows (Answers l skip source calls) l s x n σ := by
  induction h with
  | opened hlexer hagenda hsource hapart hstart hreturns hσ =>
    subst hlexer
    exact shows_opened hagenda hsource hapart hstart hreturns hσ .opened
  | call h c fuel hreturns ih =>
    exact ih.ask (fun hidles hreturns => hidles.settle_call c hreturns)
      (fun hrun hsettled => .call hrun c hsettled) hreturns
  | elsewhere h helse ih => exact ih.elsewhere helse

/-- What has come by the calls is what the source would hold if nobody read from it. -/
theorem Called.streamed (h : Called l s skip source x calls n σ) :
    Streamed l s skip x (calls.foldr (fun c total => total.grow c.items c.closing) source) n σ := by
  induction h with
  | opened hlexer hagenda hsource hapart hstart hreturns hσ =>
    exact .opened hlexer hagenda hsource hapart hstart hreturns hσ
  | call h c fuel hreturns ih =>
    rw [List.foldr_cons]
    cases c with
    | push text =>
      rw [SourceCall.items, SourceCall.closing, ← Source.push_eq_grow]
      exact ih.push text fuel hreturns
    | close =>
      rw [SourceCall.items, SourceCall.closing, ← Source.close_eq_grow]
      exact ih.close fuel hreturns
  | elsewhere h helse ih => exact ih.elsewhere helse

/-- With the same calls the engine with the limit is where the one without is, or was stopped. -/
theorem Answers.trails (h : Answers l skip source calls run)
    (h' : Answers l.unlimited skip source calls run') : run.Trails run' := by
  induction h generalizing run' with
  | opened hopening hsettled =>
    cases h' with
    | opened hopening' hsettled' =>
      obtain rfl := Option.some.inj (hopening.symm.trans hopening')
      exact (SoloRun.Trails.same _).settled hsettled hsettled'
  | call h c hsettled ih =>
    cases h' with
    | call h' _ hsettled' => exact ((ih h').grow c.items c.closing).settled hsettled hsettled'

end

/-! ### What has come of the moves -/

namespace Move

/-- Where the last match of a session ended that began at `k`. -/
def lastStop (k : Nat) (moves : List (Move τ π)) : Position :=
  ((matched moves).getLast?.map (·.span.stop)).getD (.startingAt k)

def effects (moves : List (Move τ π)) : List (Effect τ) := (firings moves).flatMap (·.effects)

theorem lastStop_snoc (k : Nat) (moves : List (Move τ π)) (move : Move τ π) :
    lastStop k (moves ++ [move]) =
      (move.firing?.map (·.matched.span.stop)).getD (lastStop k moves) := by
  rw [lastStop, matched_snoc]
  cases move.firing? with
  | none => rw [Option.map_none, Option.toList_none, List.append_nil, lastStop]; rfl
  | some firing => simp

theorem effects_snoc (moves : List (Move τ π)) (move : Move τ π) :
    effects (moves ++ [move]) = effects moves ++ (move.firing?.map (·.effects)).getD [] := by
  rw [effects, firings_snoc, List.flatMap_append]
  cases move.firing? with
  | none => rfl
  | some firing => simp [effects]

end Move

/-- A run that began at `k` has put out what these moves have emitted. If it goes on, the match in
progress begins where the last match ended, and if the limit has stopped it, it says so. -/
structure SoloRun.Recounts (l : Lexer τ π) (k : Nat) (moves : List (Move τ π))
    (run : SoloRun τ π) : Prop where
  start_eq : run.status.isLive = true → run.engine.matching.start = Move.lastStop k moves
  output_eq : run.status.isLive = true →
    run.output = SoloRun.applyEffects .fresh (Move.effects moves)
  items_eq : run.output.queue = Effect.emitted (Move.effects moves)
  tooLong : ∀ limit line column, run.status = .failed (.matchTooLong limit line column) →
    l.config.maxMatch = some limit ∧ line = (Move.lastStop k moves).line ∧
      column = (Move.lastStop k moves).column

namespace SoloRun.Recounts

variable {l : Lexer τ π} {k : Nat} {moves : List (Move τ π)} {run : SoloRun τ π}
  {read ahead : List Char}

theorem queue_eq (houtput : run.output = applyEffects .fresh (Move.effects moves)) :
    run.output.queue = Effect.emitted (Move.effects moves) := by
  rw [houtput]
  exact (queue_applyEffects .fresh _).trans (List.nil_append _)

theorem of_live (hlive : run.status.isLive = true)
    (hstart : run.engine.matching.start = Move.lastStop k moves)
    (houtput : run.output = applyEffects .fresh (Move.effects moves)) :
    run.Recounts l k moves where
  start_eq := fun _ => hstart
  output_eq := fun _ => houtput
  items_eq := queue_eq houtput
  tooLong := by
    intro limit line column hstatus
    rw [hstatus] at hlive
    cases hlive

theorem of_stop {status : SessionStatus} (hstopped : status.isLive = false)
    (houtput : run.output = applyEffects .fresh (Move.effects moves))
    (htooLong : ∀ limit line column, status = .failed (.matchTooLong limit line column) →
      l.config.maxMatch = some limit ∧ line = (Move.lastStop k moves).line ∧
        column = (Move.lastStop k moves).column) :
    (run.stop status).Recounts l k moves where
  start_eq := by
    intro hlive
    cases hlive.symm.trans hstopped
  output_eq := by
    intro hlive
    cases hlive.symm.trans hstopped
  items_eq := by
    -- closing the output does not touch what it holds
    have hqueue := queue_eq houtput
    exact hqueue
  tooLong := htooLong

theorem of_other_stop {status : SessionStatus} (hstopped : status.isLive = false)
    (hother : ¬status.TooLong)
    (houtput : run.output = applyEffects .fresh (Move.effects moves)) :
    (run.stop status).Recounts l k moves :=
  of_stop hstopped houtput fun limit line column hstatus =>
    (hother ⟨limit, line, column, hstatus⟩).elim

/-- One move of the engine. -/
theorem step (h : run.Recounts l k moves) (hlive : run.status.isLive = true)
    (htracks : Engine.Tracks l.rules run.feed run.engine read ahead) :
    (run.step l).Recounts l k (moves ++ [run.engine.move l.rules l.config run.feed]) := by
  have hstart := h.start_eq hlive
  have houtput := h.output_eq hlive
  have hexplains := Engine.explains_move l.config htracks
  rw [SoloRun.step]
  generalize run.engine.move l.rules l.config run.feed = move at hexplains
  have hquiet : move.firing? = none → Move.lastStop k (moves ++ [move]) = Move.lastStop k moves ∧
      Move.effects (moves ++ [move]) = Move.effects moves := by
    intro hnone
    rw [Move.lastStop_snoc, Move.effects_snoc, hnone]
    exact ⟨rfl, List.append_nil _⟩
  have hacts : ∀ {firing : Firing τ π}, move.firing? = some firing →
      applyEffects run.output firing.effects =
        applyEffects .fresh (Move.effects (moves ++ [move])) := by
    intro firing hfires
    rw [Move.effects_snoc, hfires, applyEffects_append, houtput]
    rfl
  cases hexplains with
  | rest =>
    obtain ⟨hstop, heffects⟩ := hquiet rfl
    exact of_live hlive (hstart.trans hstop.symm) (by rw [heffects, houtput])
  | read _ _ _ _ hstart' =>
    obtain ⟨hstop, heffects⟩ := hquiet rfl
    refine of_live (SessionStatus.isLive_afterRead hlive _) ?_ (by rw [heffects, houtput])
    rw [hstop, ← hstart]
    exact hstart'
  | fire _ _ _ hfiring _ _ hstart' =>
    refine of_live (SessionStatus.isLive_afterFire hlive _) ?_ (hacts rfl)
    rw [Move.lastStop_snoc, Move.firing?, Option.map_some, Option.getD_some,
      (RuleTable.matched_of_fire? hfiring).1]
    exact hstart'
  | last => exact of_other_stop rfl SessionStatus.not_tooLong_terminated (hacts rfl)
  | deadEnd =>
    obtain ⟨-, heffects⟩ := hquiet rfl
    exact of_other_stop rfl (SessionStatus.not_tooLong_deadEnd _ _) (by rw [heffects, houtput])
  | tooLong _ _ hmax =>
    obtain ⟨hstop, heffects⟩ := hquiet rfl
    refine of_stop rfl (by rw [heffects, houtput]) fun limit line column hstatus => ?_
    obtain ⟨rfl, rfl, rfl⟩ := LexError.matchTooLong.inj (SessionStatus.failed.inj hstatus)
    rw [hstop, ← hstart]
    exact ⟨hmax, rfl, rfl⟩

end SoloRun.Recounts

namespace Network

section

variable {l : Lexer τ π} {n n' m : Network τ π} {x k : Nat} {σ σ' : Session τ π}
  {moves : List (Move τ π)} {e : Event τ} {trace : List (Event τ)}

/-- What a session does after it was launched is shown move by move. -/
theorem Moved.follow {P : List (Move τ π) → Network τ π → Session τ π → Prop}
    (h : n.Moved x trace moves m) (hσ : n.session? x = some σ) (hstart : P [] n σ)
    (hnext : ∀ {trace moves n' n'' σ σ' e}, n.Runs trace n' → n'.session? x = some σ →
      P moves n' σ → n'.Happens e n'' → Passes n' x σ e n'' σ' →
        P (moves ++ (n'.move? x e).toList) n'' σ')
    (hσ' : m.session? x = some σ') : P moves m σ' := by
  induction h generalizing σ' with
  | refl =>
    obtain rfl := Option.some.inj (hσ.symm.trans hσ')
    exact hstart
  | snoc hbefore hevent ih =>
    obtain ⟨σ₁, hσ₁, hpasses⟩ := hevent.passes_before
      ((lt_size_of_session? hσ).trans_le hbefore.runs.size_le) hσ'
    exact hnext hbefore.runs hσ₁ (ih hσ₁) hevent hpasses

/-- Taken together with what is on the agenda, the session is a run that recounts its moves. -/
def Recounts (l : Lexer τ π) (x k : Nat) (moves : List (Move τ π)) (n : Network τ π)
    (σ : Session τ π) : Prop :=
  ∃ source, (n.ahead x (σ.alone source)).Recounts l k moves

/-- The session moves, unless it was cancelled. -/
theorem Recounts.drain {asked : List Request} {rest added : List (Task τ)}
    (h : Recounts n.lexer x k moves n σ) (hstage : Stage n.lexer x σ (.drain x :: rest))
    (hσ : n.session? x = some σ) (hagenda : n.agenda = .drain x :: rest)
    (hturn : Turn { n with agenda := rest } x σ (.drain x) σ' added)
    (hadded : n'.agenda = added ++ rest) :
    Recounts n.lexer x k (moves ++ (n.move? x (.task (.drain x) asked)).toList) n' σ' := by
  obtain ⟨source, h⟩ := h
  obtain ⟨hown, -, hreading⟩ := hstage.of_drain
  rw [ahead, hagenda, Task.own_cons rfl, hown] at h
  have hahead : ∀ source, n'.ahead x (σ'.alone source) =
      (Task.own x added).foldl Task.carry (σ'.alone source) := by
    intro source
    rw [ahead, hadded, Task.own_append, hown, List.append_nil]
  cases hcancelled : σ.cancelled with
  | true =>
    rw [move?_drain_of_cancelled hσ hcancelled, Option.toList_none, List.append_nil]
    refine ⟨source, ?_⟩
    rw [hahead]
    cases hturn with
    | elsewhere howner => exact (howner rfl).elim
    | halts hstopped => cases hstopped.symm.trans hreading.live
    | heeds =>
      rw [Task.own_cons rfl]
      exact .of_other_stop rfl SessionStatus.not_tooLong_cancelled (h.output_eq hreading.live)
    | rests _ h => cases hcancelled.symm.trans h
    | reads _ h => cases hcancelled.symm.trans h
    | fires _ h => cases hcancelled.symm.trans h
    | ends _ h => cases hcancelled.symm.trans h
    | fails _ h => cases hcancelled.symm.trans h
  | false =>
    have hplaced : Engine.Placed n.lexer.rules
        (⟨(n.source? σ.input).getD .fresh, σ.reader⟩ : Feed Char).reader σ.engine :=
      hreading.placed
    obtain ⟨read, left, htracks⟩ := hplaced.tracks
    have hrun : (σ.alone ((n.source? σ.input).getD .fresh)).Recounts n.lexer k moves :=
      ⟨h.start_eq, h.output_eq, h.items_eq, h.tooLong⟩
    have hmove : n.move? x (.task (.drain x) asked) = some (σ.engine.move n.lexer.rules
        n.lexer.config ⟨(n.source? σ.input).getD .fresh, σ.reader⟩) := by
      simp [move?, nextMove?, hσ, hreading.live, hcancelled]
    obtain ⟨source', hcarried⟩ : ∃ source', (Task.own x added).foldl Task.carry
        (σ'.alone source') = (σ.alone ((n.source? σ.input).getD .fresh)).step n.lexer :=
      ⟨_, (hturn.foldl_carry_drain hreading.live hcancelled rfl).1⟩
    rw [hmove, Option.toList_some]
    refine ⟨source', ?_⟩
    rw [hahead, hcarried]
    exact hrun.step hreading.live htracks

/-- Whatever happens, the session recounts its moves. -/
theorem Recounts.happens (h : Recounts l x k moves n σ) (hreachable : n.Reachable l)
    (hσ : n.session? x = some σ) (hpasses : Passes n x σ e n' σ') :
    Recounts l x k (moves ++ (n.move? x e).toList) n' σ' := by
  have hstage := hreachable.stage hσ
  obtain rfl := hreachable.lexer_eq
  cases hpasses with
  | @turn task asked rest added _ hevent hagenda hturn hadded =>
    subst hevent
    rw [hagenda] at hstage
    by_cases hdrain : task = .drain x
    · subst hdrain
      exact h.drain hstage hσ hagenda hturn hadded
    · have hmove : n.move? x (.task task asked) = none :=
        move?_of_ne fun asked' heq => hdrain (Event.task.inj heq).1
      obtain ⟨source, h⟩ := h
      refine ⟨source, ?_⟩
      rw [hmove, Option.toList_none, List.append_nil, ahead, hadded, hturn.ahead_eq hdrain rest,
        ← hagenda]
      exact h
  | aside hevent hadded hforeign _ =>
    obtain ⟨source, h⟩ := h
    refine ⟨source, ?_⟩
    rw [move?_of_ne fun asked => hevent _ asked, Option.toList_none, List.append_nil, ahead, hadded,
      Task.own_append, Task.own_of_not_about hforeign, List.nil_append]
    exact h

theorem recounts_launch (l : Lexer τ π) (hagenda : n.agenda = []) (t : Nat)
    (reader : Reader Char) :
    Recounts l n.sessions.size k [] (n.launch t k reader)
      ⟨t, .start n.lexer.rules k, reader, .fresh, [], .stepping, false, true⟩ := by
  refine ⟨.fresh, ?_⟩
  rw [ahead, launch, schedule, hagenda, List.append_nil, Task.own_cons rfl]
  exact .of_live rfl rfl rfl

/-- A session that has stopped has nothing on the agenda but to close its output. -/
theorem Recounts.of_stopped (h : Recounts l x k moves n σ) (hstage : Stage l x σ n.agenda)
    (hstopped : σ.status.isLive = false) : ∃ source, (σ.alone source).Recounts l k moves := by
  obtain ⟨source, h⟩ := h
  refine ⟨source, ?_⟩
  have hnot : (σ.alone source).status.isLive = true → False := fun hlive => by
    cases hlive.symm.trans hstopped
  have hsame : (n.ahead x (σ.alone source)).status = σ.status ∧
      (n.ahead x (σ.alone source)).output.queue = σ.output.queue := by
    rw [ahead]
    rcases (hstage.of_stopped hstopped).2 with hown | ⟨-, hown | hown⟩
    · rw [hown]
      exact ⟨rfl, rfl⟩
    · rw [hown]
      exact ⟨rfl, rfl⟩
    · rw [hown]
      exact ⟨rfl, rfl⟩
  exact ⟨fun hlive => (hnot hlive).elim, fun hlive => (hnot hlive).elim, hsame.2 ▸ h.items_eq,
    fun limit line column hstatus => h.tooLong limit line column (hsame.1.trans hstatus)⟩

/-- From its launch on a session recounts its moves. -/
theorem Moved.recounts {t : Nat} {reader : Reader Char} (h : n.Reachable l)
    (hagenda : n.agenda = []) (hreached : reader.start ≤ k ∧ k ≤ reader.reach)
    (hmoved : (n.launch t k reader).Moved n.sessions.size trace moves m)
    (hσ : m.session? n.sessions.size = some σ) :
    Recounts l n.sessions.size k moves m σ ∧ Stage l n.sessions.size σ m.agenda := by
  have hlaunched : (n.launch t k reader).Reachable l :=
    h.runs (.one (.launch t hagenda hreached))
  have hstage := (hlaunched.runs hmoved.runs).stage hσ
  rw [(hlaunched.runs hmoved.runs).lexer_eq] at hstage
  refine ⟨?_, hstage⟩
  refine hmoved.follow (P := Recounts l n.sessions.size k) (session?_launch_size t k reader)
    (recounts_launch l hagenda t reader) ?_ hσ
  intro _ _ m' m'' ρ ρ' e hruns hρ hrecounts _ hpasses
  exact hrecounts.happens (hlaunched.runs hruns) hρ hpasses

end

end Network

/-- The limit changes nothing but that it may stop a session. With the same calls a session with
the limit has emitted a beginning of what the session without has emitted, and unless the limit has
stopped it, the two have emitted the same and have the same status, with the same error. A session
that the limit has stopped, in any run, has emitted what the actions of its matches have, and tells
the line and the column where the last of them ended, or where it began. -/
theorem limit_conservative (l : Lexer τ π) :
    (∀ {s s' skip x x' : Nat} {source : Source Char} {calls : List SourceCall}
        {n n' : Network τ π} {σ σ' : Session τ π}, Called l s skip source x calls n σ →
        Called l.unlimited s' skip source x' calls n' σ' →
          σ.items <+: σ'.items ∧
            (¬σ.status.TooLong → σ.items = σ'.items ∧ σ.status = σ'.status)) ∧
      ∀ {n m : Network τ π} {t k : Nat} {reader : Reader Char} {trace : List (Event τ)}
        {moves : List (Move τ π)} {σ : Session τ π} {limit line column : Nat}, n.Reachable l →
        n.agenda = [] → reader.start ≤ k ∧ k ≤ reader.reach →
        (n.launch t k reader).Moved n.sessions.size trace moves m →
        m.session? n.sessions.size = some σ →
        σ.status = .failed (.matchTooLong limit line column) →
          l.config.maxMatch = some limit ∧ line = (Move.lastStop k moves).line ∧
            column = (Move.lastStop k moves).column ∧
            σ.items = Effect.emitted (Move.effects moves) := by
  refine ⟨fun h h' => ?_, fun hreachable hagenda hreached hmoved hσ hstatus => ?_⟩
  · obtain ⟨-, -, run, hanswers, houtput, hstatus, -⟩ := h.shows
    obtain ⟨-, -, run', hanswers', houtput', hstatus', -⟩ := h'.shows
    have htrails := hanswers.trails hanswers'
    rw [Session.items, Session.items, houtput, houtput', hstatus, hstatus']
    refine ⟨htrails.output_prefix, fun hnot => ?_⟩
    rw [htrails.eq_of_not_tooLong hnot]
    exact ⟨rfl, rfl⟩
  · obtain ⟨hrecounts, hstage⟩ := hmoved.recounts hreachable hagenda hreached hσ
    obtain ⟨source, -, -, hitems, htooLong⟩ := hrecounts.of_stopped hstage (by rw [hstatus]; rfl)
    obtain ⟨hmax, hline, hcolumn⟩ := htooLong _ _ _ hstatus
    exact ⟨hmax, hline, hcolumn, hitems⟩

/-! ### A word of four letters -/

namespace Network

/-- A network with a text in a source. -/
def given (l : Lexer τ π) (text : List Char) : Network τ π :=
  ((fresh l).addSource ⟨text, 0, false⟩).2

theorem apart_given {l : Lexer τ π} (hactions : ∀ state, ∀ rule ∈ l.rules.rules state,
      ∀ matched payloads r, .request r ∉ (rule.action.perform matched payloads).2.effects)
    (text : List Char) : (given l text).Apart 0 0 where
  asks :=
    { actions := fun state rule hrule matched payloads r hr =>
        (hactions state rule hrule matched payloads r hr).elim
      subscribers := by
        intro t i hi r hr
        cases t with
        | zero =>
          obtain rfl := Option.some.inj hi
          cases hr
        | succ t => cases hi
      listeners := fun y σ hσ => by cases hσ }
  readers := fun y σ hσ => by cases hσ

end Network

theorem called_given {l : Lexer τ π} (hactions : ∀ state, ∀ rule ∈ l.rules.rules state,
      ∀ matched payloads r, .request r ∉ (rule.action.perform matched payloads).2.effects)
    (text : List Char) {σ : Session τ π}
    (hstart : ((Network.given l text).start 0 0 60).1.toOption = some 0)
    (hreturns : ((Network.given l text).start 0 0 60).2.agenda = [])
    (hσ : ((Network.given l text).start 0 0 60).2.session? 0 = some σ) :
    Called l 0 0 ⟨text, 0, false⟩ 0 [] ((Network.given l text).openSession 0 0 60).2 σ := by
  cases h : ((Network.given l text).start 0 0 60).1 with
  | error offset =>
    rw [h] at hstart
    cases hstart
  | ok x =>
    rw [h] at hstart
    obtain rfl := Option.some.inj hstart
    exact .opened rfl rfl rfl (Network.apart_given hactions text) (Prod.ext h rfl) hreturns hσ

def Lexer.curbed : Lexer String Unit := { Lexer.sample with config := ⟨some 3, 16⟩ }

/-- The limit of three stops the one session in the word of four letters, and the other goes on. -/
theorem limit_conservative_sample :
    (∃ (n n' : Network String Unit) (σ σ' : Session String Unit),
      Called .curbed 0 0 ⟨"if".toList, 0, false⟩ 0
          [.close, .push "cd e".toList, .push " ab".toList] n σ ∧
        Called Lexer.curbed.unlimited 0 0 ⟨"if".toList, 0, false⟩ 0
          [.close, .push "cd e".toList, .push " ab".toList] n' σ' ∧
        σ.items <+: σ'.items ∧ σ.items = ["IF"] ∧ σ'.items = ["IF", "abcd", "e"] ∧
        σ.status = .failed (.matchTooLong 3 1 4) ∧ σ'.status = .terminated) ∧
      ∃ (trace : List (Event String)) (moves : List (Move String Unit)) (m : Network String Unit)
        (σ : Session String Unit),
        ((Network.given .curbed "if abcd".toList).launch 0 0 ⟨0, #[]⟩).Moved 0 trace moves m ∧
          m.session? 0 = some σ ∧ σ.status = .failed (.matchTooLong 3 1 4) ∧
          Move.lastStop 0 moves = ⟨3, 1, 4⟩ ∧ σ.items = Effect.emitted (Move.effects moves) := by
  constructor
  · have hbegun := called_given (l := .curbed) Network.request_not_mem_sample "if".toList
      (by decide +kernel) (by decide +kernel) (Option.some_get (by decide +kernel)).symm
    have hbegun' := called_given (l := Lexer.curbed.unlimited) Network.request_not_mem_sample
      "if".toList (by decide +kernel) (by decide +kernel) (Option.some_get (by decide +kernel)).symm
    have hcalled := ((hbegun.call (.push " ab".toList) 60 (by decide +kernel)).call
      (.push "cd e".toList) 60 (by decide +kernel)).call .close 60 (by decide +kernel)
    have hcalled' := ((hbegun'.call (.push " ab".toList) 60 (by decide +kernel)).call
      (.push "cd e".toList) 60 (by decide +kernel)).call .close 60 (by decide +kernel)
    exact ⟨_, _, _, _, hcalled, hcalled', ((limit_conservative .curbed).1 hcalled hcalled').1,
      by decide +kernel, by decide +kernel, by decide +kernel, by decide +kernel⟩
  · have hmoved := (Network.Moved.refl (n := (Network.given .curbed "if abcd".toList).launch 0 0
      ⟨0, #[]⟩) (x := 0)).settle 60
    obtain ⟨σ, hσ⟩ : ∃ σ, (((Network.given .curbed "if abcd".toList).launch 0 0
        ⟨0, #[]⟩).settle 60).session? 0 = some σ := ⟨_, (Option.some_get (by decide +kernel)).symm⟩
    have hstatus : ((((Network.given .curbed "if abcd".toList).launch 0 0
        ⟨0, #[]⟩).settle 60).session? 0).map (·.status) =
          some (.failed (.matchTooLong 3 1 4)) := by decide +kernel
    rw [hσ, Option.map_some, Option.some_inj] at hstatus
    have hreachable : (Network.given .curbed "if abcd".toList).Reachable .curbed :=
      ⟨_, .one (.addSource _)⟩
    obtain ⟨-, -, -, hitems⟩ := (limit_conservative .curbed).2 hreachable rfl
      (by decide : (⟨0, #[]⟩ : Reader Char).start ≤ 0 ∧ 0 ≤ (⟨0, #[]⟩ : Reader Char).reach)
      hmoved hσ hstatus
    exact ⟨_, _, _, σ, hmoved, hσ, hstatus, by decide +kernel, hitems⟩

end DerivativeLexer
