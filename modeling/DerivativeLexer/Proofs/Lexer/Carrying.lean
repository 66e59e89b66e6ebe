import DerivativeLexer.Proofs.Lexer.Tiling

/-! # Payloads from move to move

An engine hands its payloads to the actions and to nobody else. Whatever it has read, the rule
that fires is given the payloads that the firing before has left. -/

namespace DerivativeLexer

variable {τ π : Type}

/-- The move takes an engine from the payloads `before` to the payloads `after`. -/
inductive Move.Carries (t : RuleTable τ π) (before : Payloads π) : Move τ π → Payloads π → Prop
  | rest : Carries t before .rest before
  | read {e : Engine π} {f : Feed Char} (hpayloads : e.payloads = before) :
      Carries t before (.read e f) e.payloads
  | fire {firing : Firing τ π} {e : Engine π} {replays : Bool}
      (hfire : t.fire? firing.state firing.rule firing.matched before = some firing)
      (hpayloads : e.payloads = firing.payloads) :
      Carries t before (.fire firing e replays) e.payloads
  | last {firing : Firing τ π} {e : Engine π}
      (hfire : t.fire? firing.state firing.rule firing.matched before = some firing)
      (hpayloads : e.payloads = firing.payloads) : Carries t before (.last firing e) e.payloads
  | fail {error : LexError} {f : Feed Char} : Carries t before (.fail error f) before

/-- The payloads of the engine `e` after its move. -/
def Move.payloadsAfter (e : Engine π) : Move τ π → Payloads π
  | .rest | .fail _ _ => e.payloads
  | .read next _ | .fire _ next _ | .last _ next => next.payloads

namespace Engine

variable {t : RuleTable τ π} {config : LexerConfig} {e : Engine π} {f : Feed Char} {m : Matching}
  {stop : Position} {firing : Firing τ π}

theorem given_of_fire? {r : Reader Char} (h : e.fire? t r m stop = some firing) :
    t.fire? firing.state firing.rule firing.matched e.payloads = some firing := by
  obtain ⟨index, -, h⟩ := Option.bind_eq_some_iff.1 h
  exact (RuleTable.matched_of_fire? h).2

theorem carries_fireAt (t : RuleTable τ π) (config : LexerConfig) (e : Engine π) (f : Feed Char)
    (m : Matching) (stop : Position) (replays : Bool) :
    (e.fireAt t config f m stop replays).Carries t e.payloads
      ((e.fireAt t config f m stop replays).payloadsAfter e) := by
  unfold fireAt
  cases hfire : e.fire? t f.reader m stop with
  | none => exact .fail
  | some firing => exact .fire (given_of_fire? hfire) rfl

theorem carries_backtrack (t : RuleTable τ π) (config : LexerConfig) (e : Engine π)
    (f : Feed Char) :
    (e.backtrack t config f).Carries t e.payloads ((e.backtrack t config f).payloadsAfter e) := by
  unfold backtrack
  cases e.bookmark with
  | none => exact .fail
  | some mark => exact carries_fireAt t config e f mark.matching mark.position _

theorem carries_finish (t : RuleTable τ π) (config : LexerConfig) (e : Engine π) (f : Feed Char) :
    (e.finish t config f).Carries t e.payloads ((e.finish t config f).payloadsAfter e) := by
  simp only [finish]
  split_ifs
  · cases hfire : e.fire? t f.reader (e.matching.derive .endMark) e.position with
    | none => exact .fail
    | some firing => exact .last (given_of_fire? hfire) rfl
  · exact carries_backtrack t config e f

theorem carries_absorb (t : RuleTable τ π) (config : LexerConfig) (e : Engine π) (f : Feed Char)
    (c : Char) :
    (e.absorb config c f : Move τ π).Carries t e.payloads
      ((e.absorb config c f : Move τ π).payloadsAfter e) := by
  simp only [absorb]
  split
  · exact .fail
  · exact .read rfl

theorem carries_advance (t : RuleTable τ π) (config : LexerConfig) (e : Engine π)
    (f : Feed Char) :
    (e.advance t config f).Carries t e.payloads ((e.advance t config f).payloadsAfter e) := by
  unfold advance
  split_ifs
  · exact carries_finish t config e f
  · split
    · exact carries_absorb t config e _ _
    · exact .rest

theorem carries_move (t : RuleTable τ π) (config : LexerConfig) (e : Engine π) (f : Feed Char) :
    (e.move t config f).Carries t e.payloads ((e.move t config f).payloadsAfter e) := by
  have hmark : (e.mark.advance t config f).payloadsAfter e.mark =
      (e.mark.advance t config f).payloadsAfter e := by
    cases e.mark.advance t config f with
    | _ => rfl
  unfold move
  split_ifs
  · exact carries_fireAt t config e f _ _ false
  · rw [← hmark]
    exact carries_advance t config e.mark f
  · exact carries_backtrack t config e f
  · exact carries_advance t config e f

end Engine

end DerivativeLexer
