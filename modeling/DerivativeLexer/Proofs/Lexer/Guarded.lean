import DerivativeLexer.Proofs.Lexer.Settling
import DerivativeLexer.Stream.Hub

/-! # What the engine relies on

The functions of the engine are total: where there is nothing to draw, no rule to fire or nothing
to subtract from, they still have an answer. Here is the same engine with guards. It fails where a
head or a tail is asked for at a plugged place, where a match fires that no rule has or whose rule
the table does not list, and where a difference of offsets would be negative. An engine that has
its place in a text never runs into a guard: guarded or not, its moves are the same. -/

namespace DerivativeLexer

open DerivativeLexer.Language (symbols)

variable {τ π : Type}

/-- What the engine must not do. -/
inductive Breach where
  | plugged (read : PluggedRead)
  /-- A match fires that no rule has. -/
  | unmatched (state : StateId)
  | missingRule (state : StateId) (index : Nat)
  | underflow (whole part : Nat)
deriving DecidableEq

def Breach.difference (whole part : Nat) : Except Breach Nat :=
  if part ≤ whole then pure (whole - part) else .error (.underflow whole part)

theorem Breach.difference_eq {whole part : Nat} (h : part ≤ whole) :
    difference whole part = pure (whole - part) := if_pos h

/-! ### Reading -/

namespace Feed

section Guards

variable {α : Type} (f : Feed α) (offset : Nat)

def guardedHead : Except Breach (α × Feed α) :=
  match f.head? offset with
  | some (a, next) => pure (a, next)
  | none => .error (.plugged (.head offset))

/-- The place behind the offset; the item at the offset is drawn. -/
def guardedTail : Except Breach (Nat × Feed α) :=
  if f.plugged offset then .error (.plugged (.tail offset))
  else do
    let (_, next) ← f.guardedHead offset
    pure (offset + 1, next)

end Guards

/-- Walks on, head by head and tail by tail, for `n` items or until a place is plugged. -/
def guardedTake {α : Type} (f : Feed α) (offset : Nat) : Nat → Except Breach (List α × Feed α)
  | 0 => pure ([], f)
  | n + 1 =>
    if f.plugged offset then pure ([], f)
    else do
      let (a, drawn) ← f.guardedHead offset
      let (behind, next) ← drawn.guardedTail offset
      let (rest, last) ← next.guardedTake behind n
      pure (a :: rest, last)

variable {α : Type} {f g : Feed α} {offset : Nat} {a : α}

theorem guardedHead_eq (h : f.head? offset = some (a, g)) :
    f.guardedHead offset = pure (a, g) := by
  rw [guardedHead, h]

theorem not_plugged_of_head? (h : f.head? offset = some (a, g)) : ¬f.plugged offset = true := by
  rw [← head?_eq_none_iff, h]
  exact Option.some_ne_none _

theorem guardedTail_eq (h : f.head? offset = some (a, g)) :
    f.guardedTail offset = pure (offset + 1, g) := by
  rw [guardedTail, if_neg (not_plugged_of_head? h), guardedHead_eq h, pure_bind]

/-- The item that was drawn last is remembered. -/
theorem head?_again (ho : f.Reached offset) (h : f.head? offset = some (a, g)) :
    g.head? offset = some (a, g) := by
  unfold head? at h
  cases hdrawn : f.reader.drawnAt? offset with
  | some b =>
    rw [hdrawn] at h
    obtain ⟨rfl, rfl⟩ := Prod.mk.inj (Option.some.inj h)
    rw [head?, hdrawn]
  | none =>
    obtain ⟨-, hoffset⟩ := textFrom_eq_queue ho hdrawn
    rw [hdrawn] at h
    cases hpull : f.source.pull? with
    | none =>
      rw [hpull] at h
      cases h
    | some pulled =>
      rw [hpull] at h
      obtain ⟨rfl, rfl⟩ := Prod.mk.inj (Option.some.inj h)
      have hlast : offset - f.reader.start = f.reader.drawn.size := by
        rw [hoffset, Reader.reach, Nat.add_sub_cancel_left]
      have hremembered : (f.reader.remember pulled.1).drawnAt? offset = some pulled.1 := by
        rw [Reader.drawnAt?, if_pos (show (f.reader.remember pulled.1).start ≤ offset from ho.1)]
        simp only [Reader.remember, hlast, Array.getElem?_push_size]
      rw [head?, hremembered]

/-- The walk looks whether a place is plugged before it asks for anything there. -/
theorem guardedTake_eq (ho : f.Reached offset) (n : Nat) :
    f.guardedTake offset n = pure (f.take offset n) := by
  induction n generalizing f offset with
  | zero => rfl
  | succ n ih =>
    rw [guardedTake, take]
    cases hhead : f.head? offset with
    | none => rw [if_pos (head?_eq_none_iff.1 hhead)]
    | some drawn =>
      obtain ⟨a, g⟩ := drawn
      simp only [if_neg (not_plugged_of_head? hhead), guardedHead_eq hhead,
        guardedTail_eq (head?_again ho hhead), ih (reached_of_head? ho hhead), pure_bind]

end Feed

/-! ### Moving -/

namespace Engine

section Guards

variable (t : RuleTable τ π) (config : LexerConfig) (e : Engine π) (f : Feed Char)

/-- Fires the rule that a match belongs to, on the text from the start of the match on. -/
def guardedFire (m : Matching) (stop : Position) : Except Breach (Firing τ π) :=
  match m.winner? with
  | none => .error (.unmatched m.origin)
  | some index =>
    match (t.rules m.origin)[index]? with
    | none => .error (.missingRule m.origin index)
    | some rule => do
      let length ← Breach.difference stop.offset m.start.offset
      -- the text was drawn while it was matched, so this leaves the feed as it is
      let (text, _) ← f.guardedTake m.start.offset length
      let matched : Matched := ⟨text, ⟨m.start, stop⟩⟩
      let (next, out) := rule.action.perform matched e.payloads
      pure ⟨m.origin, index, matched, out.effects, out.payloads, next⟩

def guardedDeadEnd : Except Breach (Move τ π) := do
  let (remaining, feed) ← f.guardedTake e.matching.start.offset config.preview
  pure (.fail (.deadEnd e.matching.start (String.ofList remaining)) feed)

def guardedFireAt (m : Matching) (stop : Position) (replays : Bool) :
    Except Breach (Move τ π) := do
  let firing ← e.guardedFire t f m stop
  pure <| .fire firing
    { e with
      matching := .enter t firing.next stop
      position := stop
      bookmark := none
      payloads := firing.payloads }
    replays

def guardedBacktrack : Except Breach (Move τ π) :=
  match e.bookmark with
  | none => e.guardedDeadEnd config f
  | some mark =>
    e.guardedFireAt t f mark.matching mark.position (mark.position.offset < e.frontier)

def guardedFinish : Except Breach (Move τ π) :=
  let final := e.matching.derive .endMark
  if final.accepts then do
    let firing ← e.guardedFire t f final e.position
    pure (.last firing { e with payloads := firing.payloads })
  else e.guardedBacktrack t config f

def guardedExceeds : Except Breach (Option Nat) :=
  match config.maxMatch with
  | none => pure none
  | some limit => do
    let length ← Breach.difference e.position.offset e.matching.start.offset
    pure (if limit < length then some limit else none)

def guardedAbsorb (c : Char) : Except Breach (Move τ π) := do
  let position := e.position.advance c
  let next : Engine π :=
    { e with
      matching := e.matching.derive (.char c)
      position := position
      frontier := max e.frontier position.offset }
  match ← next.guardedExceeds config with
  | some limit =>
    pure (.fail (.matchTooLong limit e.matching.start.line e.matching.start.column) f)
  | none => pure (.read next f)

def guardedAdvance : Except Breach (Move τ π) :=
  if f.ended e.position.offset then e.guardedFinish t config f
  else if f.plugged e.position.offset then pure .rest
  else do
    let (c, drawn) ← f.guardedHead e.position.offset
    let (_, next) ← drawn.guardedTail e.position.offset
    e.guardedAbsorb config next c

def guardedMove : Except Breach (Move τ π) :=
  if e.matching.settled then e.guardedFireAt t f e.matching e.position false
  else if e.matching.accepts then e.mark.guardedAdvance t config f
  else if e.matching.rejects then e.guardedBacktrack t config f
  else e.guardedAdvance t config f

end Guards

variable {t : RuleTable τ π} {config : LexerConfig} {e : Engine π} {f : Feed Char}
  {m : Matching} {stop : Position} {firing : Firing τ π} {read ahead : List Char}

/-- A rule that fires without guards fires with them, if its match was read. -/
theorem guardedFire_eq (hfire : e.fire? t f.reader m stop = some firing)
    (hstart : f.Reached m.start.offset) (hle : m.start.offset ≤ stop.offset)
    (hstop : stop.offset ≤ f.reader.reach) : e.guardedFire t f m stop = pure firing := by
  obtain ⟨index, hwinner, hfire⟩ := Option.bind_eq_some_iff.1 hfire
  obtain ⟨rule, hrule, hfiring⟩ := Option.map_eq_some_iff.1 hfire
  obtain ⟨g, htake, -⟩ := Feed.take_eq hstart (stop.offset - m.start.offset)
  rw [← Feed.between_eq hstart.1 hstop] at htake
  simp only [guardedFire, hwinner, hrule, Breach.difference_eq hle, Feed.guardedTake_eq hstart,
    htake, pure_bind]
  exact congrArg pure hfiring

theorem guardedExceeds_eq (config : LexerConfig)
    (hle : e.matching.start.offset ≤ e.position.offset) :
    e.guardedExceeds config = pure (e.exceeds config) := by
  rw [guardedExceeds, exceeds]
  cases config.maxMatch with
  | none => rfl
  | some limit => simp [Breach.difference_eq hle, Option.filter_some]

theorem guardedDeadEnd_eq (hstart : f.Reached e.matching.start.offset) :
    (e.guardedDeadEnd config f : Except Breach (Move τ π)) = pure (e.deadEnd config f) := by
  rw [guardedDeadEnd, Feed.guardedTake_eq hstart, pure_bind]
  rfl

theorem guardedFireAt_eq (config : LexerConfig) (hfire : e.fire? t f.reader m stop = some firing)
    (hstart : f.Reached m.start.offset) (hle : m.start.offset ≤ stop.offset)
    (hstop : stop.offset ≤ f.reader.reach) (replays : Bool) :
    e.guardedFireAt t f m stop replays = pure (e.fireAt t config f m stop replays) := by
  rw [guardedFireAt, guardedFire_eq hfire hstart hle hstop, pure_bind, fireAt, hfire]

namespace Tracks

/-- What was read so far can fire whenever a rule has it. -/
theorem guardedFireAt_eq (config : LexerConfig) (h : Tracks t f e read ahead) {p : List Char}
    (hp : p <+: read) (hmatch : ∃ i, t.Matches e.matching.origin (symbols p) i)
    (replays : Bool) :
    e.guardedFireAt t f (.after t e.matching.origin e.matching.start (symbols p))
        (e.matching.start.advanceBy p) replays =
      pure (e.fireAt t config f (.after t e.matching.origin e.matching.start (symbols p))
        (e.matching.start.advanceBy p) replays) := by
  obtain ⟨j, hj⟩ := hmatch
  obtain ⟨i, hwins⟩ := Matching.exists_wins hj
  obtain ⟨firing, hfire, -⟩ := fire?_of_prefix h hp hwins
  have hlength := hp.length_le
  have hoffset := h.position_offset
  have hreached := h.reached_position.2
  refine Engine.guardedFireAt_eq config hfire ?_ ?_ ?_ replays
  · rw [Matching.start_after]
    exact h.reached_start
  · rw [Matching.start_after, Position.offset_advanceBy]
    exact Nat.le_add_right _ _
  · rw [Position.offset_advanceBy]
    omega

/-- The bookmark is the place of a match, and its rule is still in the table. -/
theorem guardedBacktrack_eq (config : LexerConfig) (h : Tracks t f e read ahead) :
    e.guardedBacktrack t config f = pure (e.backtrack t config f) := by
  rw [guardedBacktrack, backtrack]
  cases hmark : e.bookmark with
  | none => exact guardedDeadEnd_eq h.reached_start
  | some mark =>
    obtain ⟨p, hp, hmatching, hposition, hmatch⟩ := h.marked mark hmark
    simp only [hmatching, hposition]
    exact h.guardedFireAt_eq config hp hmatch _

theorem guardedFinish_eq (config : LexerConfig) (h : Tracks t f e read ahead) :
    e.guardedFinish t config f = pure (e.finish t config f) := by
  have hfinal : e.matching.derive .endMark =
      .after t e.matching.origin e.matching.start (symbols read ++ [.endMark]) := by
    rw [Matching.after_snoc, ← h.matching_eq]
  simp only [guardedFinish, finish]
  split_ifs with haccepts
  · -- the rule that wins behind the end mark is a rule of the state
    obtain ⟨index, hwinner⟩ := Option.isSome_iff_exists.1
      ((Matching.winner?_isSome (e.matching.derive .endMark)).trans haccepts)
    have hwins := hwinner
    rw [hfinal, Matching.winner?_after_eq_some_iff] at hwins
    obtain ⟨firing, hfiring⟩ := RuleTable.fire?_isSome hwins.1
      ⟨f.reader.between e.matching.start.offset e.position.offset,
        ⟨e.matching.start, e.position⟩⟩ e.payloads
    have hfire : e.fire? t f.reader (e.matching.derive .endMark) e.position = some firing := by
      rw [fire?, hwinner, Option.bind_some]
      exact hfiring
    have hle : e.matching.start.offset ≤ e.position.offset := by
      rw [h.position_offset]
      exact Nat.le_add_right _ _
    rw [guardedFire_eq hfire h.reached_start hle h.reached_position.2, pure_bind, hfire]
  · exact h.guardedBacktrack_eq config

theorem guardedAbsorb_eq (config : LexerConfig) (h : Tracks t f e read ahead) (c : Char)
    (g : Feed Char) :
    (e.guardedAbsorb config g c : Except Breach (Move τ π)) = pure (e.absorb config c g) := by
  have hoffset := h.position_offset
  have hle : e.matching.start.offset ≤ (e.position.advance c).offset := by
    rw [Position.offset_advance]
    omega
  rw [guardedAbsorb, absorb, guardedExceeds_eq config hle, pure_bind]
  generalize exceeds config _ = found
  cases found with
  | none => rfl
  | some limit => rfl

theorem guardedAdvance_eq (config : LexerConfig) (h : Tracks t f e read ahead) :
    e.guardedAdvance t config f = pure (e.advance t config f) := by
  rw [guardedAdvance, advance]
  split_ifs with hended hplugged
  · exact h.guardedFinish_eq config
  · rw [Feed.head?_eq_none_iff.2 hplugged]
  · cases hhead : f.head? e.position.offset with
    | none => exact (hplugged (Feed.head?_eq_none_iff.1 hhead)).elim
    | some drawn =>
      obtain ⟨c, g⟩ := drawn
      simp only [Feed.guardedHead_eq hhead,
        Feed.guardedTail_eq (Feed.head?_again h.reached_position hhead), pure_bind]
      exact h.guardedAbsorb_eq config c g

/-- An engine that has its place in a text never runs into a guard. -/
theorem guardedMove_eq (config : LexerConfig) (h : Tracks t f e read ahead) :
    e.guardedMove t config f = .ok (e.move t config f) := by
  rw [guardedMove, move]
  split_ifs with hsettled haccepts hrejects
  · have hmatch : ∃ i, t.Matches e.matching.origin (symbols read) i := by
      rw [h.matching_eq] at hsettled
      exact (Matching.matches_of_settled hsettled).1
    have hfire := h.guardedFireAt_eq config (List.prefix_refl read) hmatch false
    rwa [← h.matching_eq, ← h.position_eq] at hfire
  · exact (h.mark haccepts).1.guardedAdvance_eq config
  · exact h.guardedBacktrack_eq config
  · exact h.guardedAdvance_eq config

end Tracks

end Engine

/-- No text makes the engine run into a guard. -/
theorem SoloRun.Placed.guardedMove_eq {l : Lexer τ π} {s : SoloRun τ π} (h : s.Placed l)
    (hlive : s.status.isLive = true) :
    s.engine.guardedMove l.rules l.config s.feed =
      .ok (s.engine.move l.rules l.config s.feed) := by
  obtain ⟨read, ahead, htracks⟩ := h hlive
  exact htracks.guardedMove_eq l.config

end DerivativeLexer
