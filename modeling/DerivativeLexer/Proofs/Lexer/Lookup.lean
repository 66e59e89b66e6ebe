import DerivativeLexer.Lexer.Run
import DerivativeLexer.Proofs.Language.Lookup

/-! # Lexing with unions looked up

An engine derives the patterns of its live rules by every character, and each derivative may need
unions. Here an engine, a run on a whole text and the building of a rule table have all of their
unions from somewhere else, and yield the same moves, items and tables if what they get there is
right. -/

namespace DerivativeLexer

variable {τ π σ : Type} (union : Language → Language → StateM σ Language)

/-! ### Moves -/

def Matching.deriveVia (m : Matching) (x : Symbol) : StateM σ Matching := do
  let live ← m.live.mapM fun r => do
    let language ← r.language.deriveVia union x
    pure { r with language := language }
  pure { m with live := live.filter fun r => !r.language.rejectsAll }

namespace Engine

/-- What is done at the end of the input, given the match with the end mark behind it. -/
def finishAs (t : RuleTable τ π) (config : LexerConfig) (e : Engine π) (f : Feed Char)
    (final : Matching) : Move τ π :=
  if final.accepts then
    match e.fire? t f.reader final e.position with
    | none => e.deadEnd config f
    | some firing => .last firing { e with payloads := firing.payloads }
  else e.backtrack t config f

/-- What is done about a character, given the match with the character behind it. -/
def absorbAs (config : LexerConfig) (e : Engine π) (c : Char) (f : Feed Char) (m : Matching) :
    Move τ π :=
  let position := e.position.advance c
  let next : Engine π :=
    { e with
      matching := m
      position := position
      frontier := max e.frontier position.offset }
  match next.exceeds config with
  | some limit => .fail (.matchTooLong limit e.matching.start.line e.matching.start.column) f
  | none => .read next f

def advanceVia (t : RuleTable τ π) (config : LexerConfig) (e : Engine π) (f : Feed Char) :
    StateM σ (Move τ π) :=
  if f.ended e.position.offset then do
    let final ← e.matching.deriveVia union .endMark
    pure (e.finishAs t config f final)
  else
    match f.head? e.position.offset with
    | some (c, next) => do
      let m ← e.matching.deriveVia union (.char c)
      pure (e.absorbAs config c next m)
    | none => pure .rest

def moveVia (t : RuleTable τ π) (config : LexerConfig) (e : Engine π) (f : Feed Char) :
    StateM σ (Move τ π) :=
  if e.matching.settled then pure (e.accept t config f)
  else if e.matching.accepts then e.mark.advanceVia union t config f
  else if e.matching.rejects then pure (e.backtrack t config f)
  else e.advanceVia union t config f

end Engine

/-! ### Whole texts -/

namespace SoloRun

/-- The run after a move. -/
def after (s : SoloRun τ π) : Move τ π → SoloRun τ π
  | .rest => s
  | .read engine feed =>
    { s with engine := engine, feed := feed, status := s.status.afterRead engine.replaying }
  | .fire firing engine replays =>
    { s with
      engine := engine
      output := applyEffects s.output firing.effects
      status := s.status.afterFire replays }
  | .last firing engine =>
    { s with engine := engine, output := applyEffects s.output firing.effects }.stop .terminated
  | .fail error feed => { s with feed := feed }.stop (.failed error)

theorem step_eq_after (l : Lexer τ π) (s : SoloRun τ π) :
    s.step l = s.after (s.engine.move l.rules l.config s.feed) := rfl

def runVia (l : Lexer τ π) (s : SoloRun τ π) : Nat → StateM σ (SoloRun τ π)
  | 0 => pure s
  | fuel + 1 =>
    if s.status.isLive then do
      let move ← s.engine.moveVia union l.rules l.config s.feed
      (s.after move).runVia l fuel
    else pure s

end SoloRun

def Lexer.tokenizeVia (l : Lexer τ π) (text : List Char) :
    StateM σ (Except LexError (List τ)) := do
  let final ← (SoloRun.start l text).runVia union l (moveBound text.length)
  pure <|
    match final.status.error? with
    | some e => .error e
    | none => .ok final.output.queue

/-! ### Rule tables -/

/-- The states of a rule table with their patterns as they are written. -/
abbrev Draft (τ π : Type) := List (String × List (Expression × Act τ π StateId))

namespace Draft

def table (d : Draft τ π) : RuleTable τ π :=
  ⟨d.map fun st => ⟨st.1, st.2.map fun r => ⟨r.1.build, r.2⟩⟩⟩

def tableVia (d : Draft τ π) : StateM σ (RuleTable τ π) := do
  let states ← d.mapM fun st => do
    let rules ← st.2.mapM fun r => do
      let pattern ← r.1.buildVia union
      pure (⟨pattern, r.2⟩ : Rule τ π)
    pure (⟨st.1, rules⟩ : StateRules τ π)
  pure ⟨states⟩

/-- The items of a text, with the table built first. -/
def tokenize (d : Draft τ π) (config : LexerConfig) (text : List Char) :
    Except LexError (List τ) :=
  match Lexer.build d.table config with
  | .ok l => l.tokenize text
  | .error e => .error e

def tokenizeVia (d : Draft τ π) (config : LexerConfig) (text : List Char) :
    StateM σ (Except LexError (List τ)) := do
  let table ← d.tableVia union
  match Lexer.build table config with
  | .ok l => l.tokenizeVia union text
  | .error e => pure (.error e)

end Draft

/-! ### The same results -/

section Yields

variable {union} {I : σ → Prop} (hunion : ∀ a b, Yields I (union a b) (a.or b))

include hunion

theorem Matching.yields_deriveVia (m : Matching) (x : Symbol) :
    Yields I (m.deriveVia union x) (m.derive x) :=
  .bind (.mapM fun r _ => (Language.yields_deriveVia hunion x r.language).bind (.pure _)) (.pure _)

namespace Engine

variable (t : RuleTable τ π) (config : LexerConfig) (e : Engine π) (f : Feed Char)

theorem yields_advanceVia : Yields I (e.advanceVia union t config f) (e.advance t config f) := by
  unfold advanceVia advance
  refine .ite (fun _ => ?_) fun _ => ?_
  · exact (Matching.yields_deriveVia hunion _ _).bind (.pure _)
  · cases f.head? e.position.offset with
    | none => exact .pure _
    | some taken => exact (Matching.yields_deriveVia hunion _ _).bind (.pure _)

theorem yields_moveVia : Yields I (e.moveVia union t config f) (e.move t config f) :=
  .ite (fun _ => .pure _) fun _ =>
    .ite (fun _ => e.mark.yields_advanceVia hunion t config f) fun _ =>
      .ite (fun _ => .pure _) fun _ => e.yields_advanceVia hunion t config f

end Engine

theorem SoloRun.yields_runVia (l : Lexer τ π) (fuel : Nat) (s : SoloRun τ π) :
    Yields I (s.runVia union l fuel) (s.run l fuel) := by
  induction fuel generalizing s with
  | zero => exact .pure s
  | succ fuel ih =>
    refine .ite (fun _ => ?_) fun _ => .pure s
    rw [step_eq_after]
    exact (s.engine.yields_moveVia hunion l.rules l.config s.feed).bind (ih _)

theorem Lexer.yields_tokenizeVia (l : Lexer τ π) (text : List Char) :
    Yields I (l.tokenizeVia union text) (l.tokenize text) :=
  (SoloRun.yields_runVia hunion l _ _).bind (.pure _)

namespace Draft

theorem yields_tableVia (d : Draft τ π) : Yields I (d.tableVia union) d.table := by
  refine .bind (.mapM fun st _ => ?_) (.pure _)
  refine .bind (.mapM fun r _ => ?_) (.pure _)
  exact (Expression.yields_buildVia hunion r.1).bind (.pure _)

theorem yields_tokenizeVia (d : Draft τ π) (config : LexerConfig) (text : List Char) :
    Yields I (d.tokenizeVia union config text) (d.tokenize config text) := by
  refine (yields_tableVia hunion d).bind ?_
  unfold tokenize
  cases Lexer.build d.table config with
  | ok l => exact l.yields_tokenizeVia hunion text
  | error e => exact .pure _

end Draft

end Yields

end DerivativeLexer
