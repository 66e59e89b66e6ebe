import DerivativeLexer.Language.Pattern
import DerivativeLexer.Proofs.Lexer.Growth

/-! # Actions that ask for nothing

A lexer is silenced by dropping the requests of its actions. It matches as before and emits the
same items, so an engine on its own, which has nobody to ask, runs the same with both. -/

namespace DerivativeLexer

variable {τ π : Type}

def Effect.isRequest : Effect τ → Bool
  | .request _ => true
  | .emit _ | .close => false

def Act.silenced {α : Type} (act : Act τ π α) : Act τ π α := fun m o =>
  ((act m o).1, { (act m o).2 with effects := (act m o).2.effects.filter (!·.isRequest) })

def Rule.silenced (rule : Rule τ π) : Rule τ π := { rule with action := rule.action.silenced }

def RuleTable.silenced (t : RuleTable τ π) : RuleTable τ π :=
  ⟨t.states.map fun st => { st with rules := st.rules.map Rule.silenced }⟩

def Firing.silenced (firing : Firing τ π) : Firing τ π :=
  { firing with effects := firing.effects.filter (!·.isRequest) }

def Move.silenced : Move τ π → Move τ π
  | .fire firing engine replays => .fire firing.silenced engine replays
  | .last firing engine => .last firing.silenced engine
  | move => move

/-! ### Tables -/

namespace RuleTable

variable (t : RuleTable τ π)

theorem rules_silenced (s : StateId) : t.silenced.rules s = (t.rules s).map Rule.silenced := by
  simp only [rules, silenced, List.getElem?_map]
  cases t.states[s.index]? with
  | none => rfl
  | some st => rfl

theorem firstNullable?_silenced : t.silenced.firstNullable? = t.firstNullable? := by
  have hstate : ∀ st : StateRules τ π,
      ((st.rules.map Rule.silenced).find? (·.pattern.acceptsEmpty)).map
          (fun r => (st.name, r.pattern)) =
        (st.rules.find? (·.pattern.acceptsEmpty)).map fun r => (st.name, r.pattern) := by
    intro st
    rw [List.find?_map, Option.map_map]
    rfl
  simp only [firstNullable?, silenced, List.findSome?_map, Function.comp_def, hstate]

theorem fire?_silenced (s : StateId) (index : Nat) (matched : Matched) (payloads : Payloads π) :
    t.silenced.fire? s index matched payloads =
      (t.fire? s index matched payloads).map Firing.silenced := by
  rw [fire?, fire?, rules_silenced, List.getElem?_map, Option.map_map, Option.map_map]
  rfl

theorem request_not_mem_silenced {s : StateId} {rule : Rule τ π}
    (hrule : rule ∈ t.silenced.rules s) (matched : Matched) (payloads : Payloads π)
    (r : SourceRequest Char) : .request r ∉ (rule.action.perform matched payloads).2.effects := by
  rw [rules_silenced] at hrule
  obtain ⟨rule, -, rfl⟩ := List.mem_map.1 hrule
  intro hmem
  cases (List.mem_filter.1 hmem).2

end RuleTable

theorem Matching.enter_silenced (t : RuleTable τ π) (s : StateId) (start : Position) :
    enter t.silenced s start = enter t s start := by
  have hlive : ((t.rules s).map Rule.silenced).mapIdx (fun i r => (⟨i, r.pattern⟩ : LiveRule)) =
      (t.rules s).mapIdx fun i r => ⟨i, r.pattern⟩ := by
    apply List.ext_getElem?
    intro i
    rw [List.getElem?_mapIdx, List.getElem?_mapIdx, List.getElem?_map, Option.map_map]
    rfl
  rw [enter, enter, RuleTable.rules_silenced, hlive]

def Lexer.silenced (l : Lexer τ π) : Lexer τ π where
  rules := l.rules.silenced
  config := l.config
  productive := (RuleTable.firstNullable?_silenced l.rules).trans l.productive

/-! ### Moves -/

namespace Engine

variable (t : RuleTable τ π) (config : LexerConfig) (e : Engine π) (f : Feed Char)

theorem start_silenced (offset : Nat) : start t.silenced offset = start t offset := by
  rw [start, start, Matching.enter_silenced]

theorem fire?_silenced (r : Reader Char) (m : Matching) (stop : Position) :
    e.fire? t.silenced r m stop = (e.fire? t r m stop).map Firing.silenced := by
  simp only [fire?, RuleTable.fire?_silenced]
  cases m.winner? with
  | none => rfl
  | some index => rfl

theorem fireAt_silenced (m : Matching) (stop : Position) (replays : Bool) :
    e.fireAt t.silenced config f m stop replays =
      (e.fireAt t config f m stop replays).silenced := by
  simp only [fireAt, fire?_silenced, Matching.enter_silenced]
  cases e.fire? t f.reader m stop with
  | none => rfl
  | some firing => rfl

theorem backtrack_silenced :
    e.backtrack t.silenced config f = (e.backtrack t config f).silenced := by
  unfold backtrack
  cases e.bookmark with
  | none => rfl
  | some mark => exact e.fireAt_silenced t config f mark.matching mark.position _

theorem finish_silenced : e.finish t.silenced config f = (e.finish t config f).silenced := by
  simp only [finish, fire?_silenced, backtrack_silenced]
  split
  · cases e.fire? t f.reader (e.matching.derive .endMark) e.position with
    | none => rfl
    | some firing => rfl
  · rfl

theorem absorb_silenced (c : Char) : (e.absorb config c f : Move τ π).silenced =
    e.absorb config c f := by
  simp only [absorb]
  split
  · rfl
  · rfl

theorem advance_silenced : e.advance t.silenced config f = (e.advance t config f).silenced := by
  unfold advance
  rw [finish_silenced]
  split
  · rfl
  · split
    next c next _ => exact (e.absorb_silenced config next c).symm
    next => rfl

theorem move_silenced : e.move t.silenced config f = (e.move t config f).silenced := by
  unfold move accept
  rw [fireAt_silenced, advance_silenced, backtrack_silenced, advance_silenced]
  split
  · rfl
  · split
    · rfl
    · split
      · rfl
      · rfl

end Engine

/-! ### Runs -/

namespace SoloRun

theorem applyEffects_silenced (output : Source τ) (effects : List (Effect τ)) :
    applyEffects output (effects.filter (!·.isRequest)) = applyEffects output effects := by
  induction effects generalizing output with
  | nil => rfl
  | cons effect rest ih =>
    cases effect with
    | emit item => exact ih (output.push [item])
    | close => exact ih output.close
    | request r => exact ih output

theorem step_silenced (l : Lexer τ π) (s : SoloRun τ π) : s.step l.silenced = s.step l := by
  simp only [step, Lexer.silenced, Engine.move_silenced]
  cases s.engine.move l.rules l.config s.feed with
  | rest => rfl
  | read engine feed => rfl
  | fire firing engine replays =>
    simp only [Move.silenced, Firing.silenced, applyEffects_silenced]
  | last firing engine =>
    simp only [Move.silenced, Firing.silenced, applyEffects_silenced]
  | fail error feed => rfl

theorem run_silenced (l : Lexer τ π) (s : SoloRun τ π) (fuel : Nat) :
    s.run l.silenced fuel = s.run l fuel := by
  induction fuel generalizing s with
  | zero => rfl
  | succ fuel ih => rw [run, run, step_silenced, ih]

theorem settled_silenced (l : Lexer τ π) (s : SoloRun τ π) :
    s.Settled l.silenced ↔ s.Settled l := by
  have hrest : ∀ move : Move τ π, move.silenced = .rest ↔ move = .rest := by
    intro move
    cases move with
    | rest => exact Iff.rfl
    | _ => exact ⟨fun h => (nomatch h), fun h => (nomatch h)⟩
  simp only [Settled, Lexer.silenced, Engine.move_silenced, hrest]

end SoloRun

/-! ### A lexer whose actions ask -/

/-- The action for the first letter emits twice, and asks for more input in between. -/
def Lexer.echo : Lexer String Unit where
  rules := ⟨[⟨"main", [
    ⟨Language.lit "a", do
      Act.emit "a"
      Act.request (.push 0 ['b'])
      Act.emit "A"
      pure RuleTable.initial⟩,
    ⟨Language.lit "b", do
      Act.emit "b"
      pure RuleTable.initial⟩,
    ⟨Language.endOfInput, do
      Act.close
      pure RuleTable.initial⟩]⟩]⟩
  config := .standard
  productive := by decide +kernel

end DerivativeLexer
