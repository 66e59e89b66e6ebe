import DerivativeLexer.Lexer.Engine
import DerivativeLexer.Lexer.Status

/-! # Lexing a whole text

Nothing can be added to a complete text, so an engine is run on it until it stops. The items that
the actions emit before the output is closed are the result. -/

namespace DerivativeLexer

/-- An engine on its own, with the output it has written so far. -/
structure SoloRun (τ π : Type) where
  engine : Engine π
  feed : Feed Char
  output : Source τ
  status : SessionStatus

namespace SoloRun

variable {τ π : Type}

/-- Carries effects out on the output. There is no input source that could be asked for
anything. -/
def applyEffects (output : Source τ) (effects : List (Effect τ)) : Source τ :=
  effects.foldl
    (fun out e =>
      match e with
      | .emit item => out.push [item]
      | .close => out.close
      | .request _ => out)
    output

def start (l : Lexer τ π) (text : List Char) : SoloRun τ π where
  engine := .start l.rules 0
  feed := ⟨.complete text, .of (.complete text)⟩
  output := .fresh
  status := .stepping

def stop (s : SoloRun τ π) (status : SessionStatus) : SoloRun τ π :=
  { s with
    engine := { s.engine with bookmark := none }
    output := s.output.close
    status := status }

def step (l : Lexer τ π) (s : SoloRun τ π) : SoloRun τ π :=
  match s.engine.move l.rules l.config s.feed with
  | .rest => s
  | .read engine feed =>
    { s with engine := engine, feed := feed, status := s.status.afterRead engine.replaying }
  | .fire firing engine replays =>
    { s with
      engine := engine
      output := applyEffects s.output firing.effects
      status := s.status.afterFire replays }
  | .last firing engine =>
    { s with engine := engine, output := applyEffects s.output firing.effects }.stop .terminated
  | .fail error feed => { s with feed := feed }.stop (.failed error)

def run (l : Lexer τ π) (s : SoloRun τ π) : Nat → SoloRun τ π
  | 0 => s
  | fuel + 1 => if s.status.isLive then (s.step l).run l fuel else s

theorem run_of_stopped {l : Lexer τ π} {s : SoloRun τ π} (h : s.status.isLive = false)
    (fuel : Nat) : s.run l fuel = s := by
  cases fuel with
  | zero => rfl
  | succ fuel => simp [run, h]

theorem run_succ {l : Lexer τ π} {s : SoloRun τ π} (h : s.status.isLive = true) (fuel : Nat) :
    s.run l (fuel + 1) = (s.step l).run l fuel := by
  rw [run, if_pos h]

end SoloRun

namespace Lexer

variable {τ π : Type}

/-- A bound on the moves of an engine on a text of length `n`: every match fires on at least one
character, and between two matches at most the rest of the text is read. -/
def moveBound (n : Nat) : Nat := (n + 2) * (n + 2)

def lastRun (l : Lexer τ π) (text : List Char) : SoloRun τ π :=
  (SoloRun.start l text).run l (moveBound text.length)

/-- The items of a text, or the error that stops the engine. -/
def tokenize (l : Lexer τ π) (text : List Char) : Except LexError (List τ) :=
  let final := l.lastRun text
  match final.status.error? with
  | some e => .error e
  | none => .ok final.output.queue

end Lexer

end DerivativeLexer
