import DerivativeLexer.Proofs.Lexer.Growth
import DerivativeLexer.Proofs.Lexer.MaximalMunch

/-! # With and without a limit

The limit on a match is looked at in the middle of a move, when the next character has been read.
All that it does there is to make the move fail. So an engine with a limit goes the way of the same
engine without, and at most stops somewhere on it. -/

namespace DerivativeLexer

variable {τ π : Type}

def LexerConfig.unlimited (c : LexerConfig) : LexerConfig := { c with maxMatch := none }

/-- The lexer whose matches may grow as long as they like. -/
def Lexer.unlimited (l : Lexer τ π) : Lexer τ π := { l with config := l.config.unlimited }

def SessionStatus.TooLong (s : SessionStatus) : Prop :=
  ∃ limit line column, s = .failed (.matchTooLong limit line column)

theorem SessionStatus.TooLong.stopped {s : SessionStatus} (h : s.TooLong) : s.isLive = false := by
  obtain ⟨limit, line, column, rfl⟩ := h
  rfl

theorem SessionStatus.not_tooLong_terminated : ¬SessionStatus.terminated.TooLong := by
  rintro ⟨limit, line, column, h⟩
  cases h

theorem SessionStatus.not_tooLong_cancelled : ¬SessionStatus.cancelled.TooLong := by
  rintro ⟨limit, line, column, h⟩
  cases h

theorem SessionStatus.not_tooLong_deadEnd (place : Position) (remaining : String) :
    ¬(SessionStatus.failed (.deadEnd place remaining)).TooLong := by
  rintro ⟨limit, line, column, h⟩
  cases h

/-! ### Moves -/

namespace Engine

variable (t : RuleTable τ π) (config : LexerConfig) (e : Engine π) (f : Feed Char)

/-- Only reading a character depends on the limit. -/
theorem absorb_unlimited (c : Char) :
    (e.absorb config c f : Move τ π) = e.absorb config.unlimited c f ∨
      ∃ limit, (e.absorb config c f : Move τ π) =
        .fail (.matchTooLong limit e.matching.start.line e.matching.start.column) f := by
  simp only [absorb]
  split
  next limit hexceeds => exact .inr ⟨limit, rfl⟩
  next hexceeds => exact .inl rfl

theorem advance_unlimited :
    e.advance t config f = e.advance t config.unlimited f ∨
      ∃ limit f', e.advance t config f =
        .fail (.matchTooLong limit e.matching.start.line e.matching.start.column) f' := by
  unfold advance
  split_ifs with hended
  · exact .inl rfl
  · split
    next c next hhead =>
      rcases e.absorb_unlimited (τ := τ) config next c with hsame | ⟨limit, hfail⟩
      · exact .inl hsame
      · exact .inr ⟨limit, next, hfail⟩
    next hhead => exact .inl rfl

/-- A move is what it would be without the limit, or it fails because of the limit. -/
theorem move_unlimited :
    e.move t config f = e.move t config.unlimited f ∨
      ∃ limit f', e.move t config f =
        .fail (.matchTooLong limit e.matching.start.line e.matching.start.column) f' := by
  unfold move
  split_ifs
  · exact .inl rfl
  · exact e.mark.advance_unlimited t config f
  · exact .inl rfl
  · exact e.advance_unlimited t config f

end Engine

/-! ### Runs -/

namespace SoloRun

variable {l : Lexer τ π} {s s' : SoloRun τ π}

theorem queue_prefix_applyEffects (out : Source τ) (effects : List (Effect τ)) :
    out.queue <+: (applyEffects out effects).queue := by
  rw [queue_applyEffects]
  split_ifs
  · exact List.prefix_refl _
  · exact List.prefix_append _ _

theorem queue_prefix_step (l : Lexer τ π) (s : SoloRun τ π) :
    s.output.queue <+: (s.step l).output.queue := by
  unfold step
  split
  · exact List.prefix_refl _
  · exact List.prefix_refl _
  · exact queue_prefix_applyEffects _ _
  · exact queue_prefix_applyEffects s.output _
  · exact List.prefix_refl _

/-- What a run has put out stays there. -/
theorem queue_prefix_run (l : Lexer τ π) (s : SoloRun τ π) (fuel : Nat) :
    s.output.queue <+: (s.run l fuel).output.queue := by
  induction fuel generalizing s with
  | zero => exact List.prefix_refl _
  | succ fuel ih =>
    cases hlive : s.status.isLive with
    | false =>
      rw [run_of_stopped hlive]
    | true =>
      rw [run_succ hlive]
      exact (s.queue_prefix_step l).trans (ih (s.step l))

/-- The run is the other one, or it was stopped by the limit and has put out no more than the other
one. -/
inductive Trails : SoloRun τ π → SoloRun τ π → Prop
  | same (s : SoloRun τ π) : Trails s s
  | stopped {s s' : SoloRun τ π} (htooLong : s.status.TooLong)
      (hqueue : s.output.queue <+: s'.output.queue) : Trails s s'

namespace Trails

theorem step (l : Lexer τ π) (s : SoloRun τ π) : Trails (s.step l) (s.step l.unlimited) := by
  have hmove := s.engine.move_unlimited l.rules l.config s.feed
  rcases hmove with hsame | ⟨limit, f', hfail⟩
  · have hstep : s.step l = s.step l.unlimited := by
      rw [SoloRun.step, hsame]
      rfl
    rw [hstep]
    exact .same _
  · have hstep : s.step l = { s with feed := f' }.stop (.failed
        (.matchTooLong limit s.engine.matching.start.line s.engine.matching.start.column)) := by
      rw [SoloRun.step, hfail]
    rw [hstep]
    exact .stopped ⟨limit, _, _, rfl⟩ (s.queue_prefix_step l.unlimited)

theorem run (h : Trails s s') (l : Lexer τ π) (fuel : Nat) :
    Trails (s.run l fuel) (s'.run l.unlimited fuel) := by
  induction fuel generalizing s s' with
  | zero => exact h
  | succ fuel ih =>
    cases h with
    | same =>
      cases hlive : s.status.isLive with
      | false =>
        rw [run_of_stopped hlive, run_of_stopped hlive]
        exact .same s
      | true =>
        rw [run_succ hlive, run_succ hlive]
        exact ih (.step l s)
    | stopped htooLong hqueue =>
      rw [run_of_stopped htooLong.stopped]
      exact .stopped htooLong (hqueue.trans (s'.queue_prefix_run l.unlimited _))

theorem grow (h : Trails s s') (items : List Char) (closing : Bool) :
    Trails (s.grow items closing) (s'.grow items closing) := by
  cases h with
  | same => exact .same _
  | stopped htooLong hqueue => exact .stopped htooLong hqueue

/-- It does not matter when the two runs have settled. -/
theorem settled {j k : Nat} (h : Trails s s') (hj : (s.run l j).Settled l)
    (hk : (s'.run l.unlimited k).Settled l.unlimited) :
    Trails (s.run l j) (s'.run l.unlimited k) := by
  have hboth := h.run l (j + k)
  rw [run_add, run_of_settled hj, Nat.add_comm, run_add, run_of_settled hk] at hboth
  exact hboth

theorem output_prefix (h : Trails s s') : s.output.queue <+: s'.output.queue := by
  cases h with
  | same => exact List.prefix_refl _
  | stopped _ hqueue => exact hqueue

theorem eq_of_not_tooLong (h : Trails s s') (hstatus : ¬s.status.TooLong) : s = s' := by
  cases h with
  | same => rfl
  | stopped htooLong => exact (hstatus htooLong).elim

end Trails

end SoloRun

end DerivativeLexer
