import DerivativeLexer.Lexer.Run
import Mathlib.Tactic.SplitIfs

/-! # Input that grows

An engine that finds nothing to read rests, and every other move depends only on what it has
read by then. So more input, or the end of it, changes nothing about a move that was made before
it came, but that an error may show more of what is left. A run on input that grows is therefore a
run on all of the input from the start, and stops as that one stops. -/

namespace DerivativeLexer

variable {τ π α : Type}

/-! ### Sources and feeds -/

namespace Source

/-- A source that more was pushed to and that may have been closed then. A closed source stays as
it is. -/
def grow (s : Source α) (items : List α) (closing : Bool) : Source α :=
  if s.closed then s else { s with queue := s.queue ++ items, closed := closing }

theorem grow_of_closed {s : Source α} (h : s.closed = true) (items : List α) (closing : Bool) :
    s.grow items closing = s := by
  rw [grow, if_pos h]

theorem push_eq_grow (s : Source α) (items : List α) : s.push items = s.grow items false := by
  obtain ⟨queue, pulled, closed⟩ := s
  cases closed with
  | true => rfl
  | false => rfl

theorem close_eq_grow (s : Source α) : s.close = s.grow [] true := by
  obtain ⟨queue, pulled, closed⟩ := s
  cases closed with
  | true => rfl
  | false => simp [close, grow]

theorem pulled_grow (s : Source α) (items : List α) (closing : Bool) :
    (s.grow items closing).pulled = s.pulled := by
  unfold grow
  split
  · rfl
  · rfl

theorem pull?_grow {s rest : Source α} {a : α} (h : s.pull? = some (a, rest)) (items : List α)
    (closing : Bool) : (s.grow items closing).pull? = some (a, rest.grow items closing) := by
  unfold pull? at h
  cases hqueue : s.queue with
  | nil =>
    rw [hqueue] at h
    cases h
  | cons b later =>
    rw [hqueue] at h
    cases h
    cases hclosed : s.closed with
    | true => simp [grow, pull?, hqueue, hclosed]
    | false => simp [grow, pull?, hqueue, hclosed]

end Source

namespace Feed

variable {f g : Feed α} {offset : Nat}

def grow (f : Feed α) (items : List α) (closing : Bool) : Feed α :=
  { f with source := f.source.grow items closing }

theorem grow_of_closed (h : f.source.closed = true) (items : List α) (closing : Bool) :
    f.grow items closing = f := by
  rw [grow, Source.grow_of_closed h]

theorem head?_grow {a : α} (h : f.head? offset = some (a, g)) (items : List α) (closing : Bool) :
    (f.grow items closing).head? offset = some (a, g.grow items closing) := by
  unfold head? at h
  cases hdrawn : f.reader.drawnAt? offset with
  | some b =>
    rw [hdrawn] at h
    cases h
    simp only [head?, grow, hdrawn]
  | none =>
    rw [hdrawn] at h
    cases hpull : f.source.pull? with
    | none =>
      rw [hpull] at h
      cases h
    | some taken =>
      obtain ⟨b, rest⟩ := taken
      rw [hpull] at h
      cases h
      simp only [head?, grow, hdrawn, Source.pull?_grow hpull]

theorem not_ended_of_head? {a : α} (h : f.head? offset = some (a, g)) :
    f.ended offset = false := by
  have hne : f.head? offset ≠ none := by
    rw [h]
    exact Option.some_ne_none _
  rw [ended, Bool.eq_false_iff.2 fun hplugged => hne (head?_eq_none_iff.2 hplugged),
    Bool.false_and]

theorem closed_of_ended (h : f.ended offset = true) : f.source.closed = true :=
  (Bool.and_eq_true_iff.1 h).2

theorem take_grow (f : Feed α) (offset n : Nat) (items : List α) (closing : Bool) :
    (f.take offset n).1 <+: ((f.grow items closing).take offset n).1 := by
  induction n generalizing f offset with
  | zero => exact List.prefix_refl []
  | succ n ih =>
    cases hhead : f.head? offset with
    | none =>
      rw [take, hhead]
      exact List.nil_prefix
    | some taken =>
      obtain ⟨a, next⟩ := taken
      simp only [take, hhead, head?_grow hhead, List.cons_prefix_cons]
      exact ⟨trivial, ih next (offset + 1)⟩

end Feed

/-! ### Moves -/

inductive LexError.Foreshows : LexError → LexError → Prop
  | same (e : LexError) : Foreshows e e
  | deadEnd (place : Position) {remaining remaining' : String}
      (h : remaining.toList <+: remaining'.toList) :
      Foreshows (.deadEnd place remaining) (.deadEnd place remaining')

/-- What a move becomes when the input had grown before it. Nothing is said of a rest. -/
inductive Move.Grows (items : List Char) (closing : Bool) : Move τ π → Move τ π → Prop
  | rest (move : Move τ π) : Grows items closing .rest move
  | read (e : Engine π) (f : Feed Char) :
      Grows items closing (.read e f) (.read e (f.grow items closing))
  | fire (firing : Firing τ π) (e : Engine π) (replays : Bool) :
      Grows items closing (.fire firing e replays) (.fire firing e replays)
  | last (firing : Firing τ π) (e : Engine π) :
      Grows items closing (.last firing e) (.last firing e)
  | fail {error error' : LexError} (f f' : Feed Char) (h : error.Foreshows error') :
      Grows items closing (.fail error f) (.fail error' f')

namespace Engine

section Moves

variable (t : RuleTable τ π) (config : LexerConfig) (e : Engine π) (f : Feed Char)
  (items : List Char) (closing : Bool)

theorem grows_deadEnd :
    Move.Grows items closing (e.deadEnd config f : Move τ π)
      (e.deadEnd config (f.grow items closing)) := by
  refine .fail _ _ (.deadEnd _ ?_)
  rw [String.toList_ofList, String.toList_ofList]
  exact f.take_grow e.matching.start.offset config.preview items closing

theorem grows_fireAt (m : Matching) (stop : Position) (replays : Bool) :
    Move.Grows items closing (e.fireAt t config f m stop replays)
      (e.fireAt t config (f.grow items closing) m stop replays) := by
  have hreader : (f.grow items closing).reader = f.reader := rfl
  rw [fireAt, fireAt, hreader]
  cases e.fire? t f.reader m stop with
  | none => exact e.grows_deadEnd config f items closing
  | some firing => exact .fire firing _ _

theorem grows_backtrack :
    Move.Grows items closing (e.backtrack t config f)
      (e.backtrack t config (f.grow items closing)) := by
  unfold backtrack
  cases e.bookmark with
  | none => exact e.grows_deadEnd config f items closing
  | some mark => exact e.grows_fireAt t config f items closing mark.matching mark.position _

theorem grows_finish :
    Move.Grows items closing (e.finish t config f)
      (e.finish t config (f.grow items closing)) := by
  have hreader : (f.grow items closing).reader = f.reader := rfl
  simp only [finish, hreader]
  split_ifs with haccepts
  · cases e.fire? t f.reader (e.matching.derive .endMark) e.position with
    | none => exact e.grows_deadEnd config f items closing
    | some firing => exact .last firing _
  · exact e.grows_backtrack t config f items closing

theorem grows_absorb (c : Char) :
    Move.Grows items closing (e.absorb config c f : Move τ π)
      (e.absorb config c (f.grow items closing)) := by
  simp only [absorb]
  split
  · exact .fail _ _ (.same _)
  · exact .read _ f

theorem grows_advance :
    Move.Grows items closing (e.advance t config f)
      (e.advance t config (f.grow items closing)) := by
  unfold advance
  cases hended : f.ended e.position.offset with
  | true =>
    -- the end of the input was there, so nothing has come
    have hsame := Feed.grow_of_closed (Feed.closed_of_ended hended) items closing
    have hfinish := e.grows_finish t config f items closing
    rw [hsame] at hfinish ⊢
    rw [hended]
    exact hfinish
  | false =>
    cases hhead : f.head? e.position.offset with
    | none => exact .rest _
    | some taken =>
      obtain ⟨c, next⟩ := taken
      have hhead' := Feed.head?_grow hhead items closing
      rw [Feed.not_ended_of_head? hhead', hhead']
      exact e.grows_absorb config next items closing c

/-- A move that is not a rest would have been the same on all of the input. -/
theorem grows_move :
    Move.Grows items closing (e.move t config f) (e.move t config (f.grow items closing)) := by
  unfold move
  split_ifs with hsettled haccepts hrejects
  · exact e.grows_fireAt t config f items closing e.matching e.position false
  · exact e.mark.grows_advance t config f items closing
  · exact e.grows_backtrack t config f items closing
  · exact e.grows_advance t config f items closing

end Moves

end Engine

/-! ### Runs -/

inductive SessionStatus.Foreshows : SessionStatus → SessionStatus → Prop
  | same (s : SessionStatus) : Foreshows s s
  | failed {e e' : LexError} (h : e.Foreshows e') : Foreshows (.failed e) (.failed e')

theorem LexError.Foreshows.trans {a b c : LexError} (hab : a.Foreshows b) (hbc : b.Foreshows c) :
    a.Foreshows c := by
  cases hab with
  | same => exact hbc
  | deadEnd place h =>
    cases hbc with
    | same => exact .deadEnd place h
    | deadEnd _ h' => exact .deadEnd place (h.trans h')

theorem SessionStatus.Foreshows.trans {a b c : SessionStatus} (hab : a.Foreshows b)
    (hbc : b.Foreshows c) : a.Foreshows c := by
  cases hab with
  | same => exact hbc
  | failed h =>
    cases hbc with
    | same => exact .failed h
    | failed h' => exact .failed (h.trans h')

theorem SessionStatus.Foreshows.isLive_eq {a b : SessionStatus} (h : a.Foreshows b) :
    b.isLive = a.isLive := by
  cases h with
  | same => rfl
  | failed => rfl

namespace SoloRun

variable {l : Lexer τ π} {s s' s'' : SoloRun τ π}

def grow (s : SoloRun τ π) (items : List Char) (closing : Bool) : SoloRun τ π :=
  { s with feed := s.feed.grow items closing }

/-- The run has stopped, or there is nothing for it to read. -/
def Settled (l : Lexer τ π) (s : SoloRun τ π) : Prop :=
  s.status.isLive = true → s.engine.move l.rules l.config s.feed = .rest

/-- The run has stopped with the output of another, and shows no more in its status. -/
structure Foreshows (s s' : SoloRun τ π) : Prop where
  stopped : s.status.isLive = false
  output_eq : s'.output = s.output
  status : s.status.Foreshows s'.status

theorem Foreshows.trans (h : s.Foreshows s') (h' : s'.Foreshows s'') : s.Foreshows s'' where
  stopped := h.stopped
  output_eq := h'.output_eq.trans h.output_eq
  status := h.status.trans h'.status

theorem Foreshows.stopped_right (h : s.Foreshows s') : s'.status.isLive = false := by
  rw [h.status.isLive_eq]
  exact h.stopped

theorem foreshows_grow (h : s.status.isLive = false) (items : List Char) (closing : Bool) :
    s.Foreshows (s.grow items closing) :=
  ⟨h, rfl, .same _⟩

theorem step_of_rest (h : s.engine.move l.rules l.config s.feed = .rest) : s.step l = s := by
  rw [step, h]

theorem settled_of_stopped (h : s.status.isLive = false) : s.Settled l := by
  intro hlive
  rw [h] at hlive
  cases hlive

theorem run_of_settled (h : s.Settled l) (fuel : Nat) : s.run l fuel = s := by
  induction fuel with
  | zero => rfl
  | succ fuel ih =>
    cases hlive : s.status.isLive with
    | false => exact run_of_stopped hlive _
    | true => rw [run_succ hlive, step_of_rest (h hlive), ih]

theorem run_add (j k : Nat) : s.run l (j + k) = (s.run l j).run l k := by
  induction j generalizing s with
  | zero => rw [Nat.zero_add, run]
  | succ j ih =>
    cases hlive : s.status.isLive with
    | false => rw [run_of_stopped hlive, run_of_stopped hlive, run_of_stopped hlive]
    | true => rw [Nat.succ_add, run_succ hlive, run_succ hlive, ih]

theorem run_eq_of_settled {j k : Nat} (hj : (s.run l j).Settled l) (hk : (s.run l k).Settled l) :
    s.run l j = s.run l k := by
  calc s.run l j = (s.run l j).run l k := (run_of_settled hj k).symm
    _ = s.run l (j + k) := run_add j k |>.symm
    _ = s.run l (k + j) := by rw [Nat.add_comm]
    _ = (s.run l k).run l j := run_add k j
    _ = s.run l k := run_of_settled hk j

theorem step_grow (l : Lexer τ π) (s : SoloRun τ π) (items : List Char) (closing : Bool) :
    s.engine.move l.rules l.config s.feed = .rest ∨
      (s.grow items closing).step l = (s.step l).grow items closing ∨
      (s.step l).Foreshows ((s.grow items closing).step l) := by
  have hmove := s.engine.grows_move l.rules l.config s.feed items closing
  simp only [step, grow]
  generalize s.engine.move l.rules l.config s.feed = move at hmove
  generalize s.engine.move l.rules l.config (s.feed.grow items closing) = grown at hmove
  cases hmove with
  | rest => exact .inl rfl
  | read e f => exact .inr (.inl rfl)
  | fire firing e replays => exact .inr (.inl rfl)
  | last firing e => exact .inr (.inl rfl)
  | fail f f' h => exact .inr (.inr ⟨rfl, rfl, .failed h⟩)

/-- What a run has come to, it comes to on all of the input as well: if it is live, at the same
place with more ahead, and if it has stopped, with the same output and the same status. -/
theorem run_grow (l : Lexer τ π) (s : SoloRun τ π) (items : List Char) (closing : Bool)
    (fuel : Nat) :
    ((s.run l fuel).status.isLive = true ∧
        ∃ k, (s.grow items closing).run l k = (s.run l fuel).grow items closing) ∨
      ∃ k, (s.run l fuel).Foreshows ((s.grow items closing).run l k) := by
  induction fuel generalizing s with
  | zero =>
    cases hlive : s.status.isLive with
    | true => exact .inl ⟨hlive, 0, rfl⟩
    | false => exact .inr ⟨0, foreshows_grow hlive items closing⟩
  | succ fuel ih =>
    cases hlive : s.status.isLive with
    | false =>
      rw [run_of_stopped hlive]
      exact .inr ⟨0, foreshows_grow hlive items closing⟩
    | true =>
      have hgrown : (s.grow items closing).status.isLive = true := hlive
      rw [run_succ hlive]
      rcases s.step_grow l items closing with hrest | hstep | hshows
      · rw [step_of_rest hrest]
        exact ih s
      · rcases ih (s.step l) with ⟨hlive', k, hk⟩ | ⟨k, hk⟩
        · refine .inl ⟨hlive', k + 1, ?_⟩
          rw [run_succ hgrown, hstep, hk]
        · refine .inr ⟨k + 1, ?_⟩
          rw [run_succ hgrown, hstep]
          exact hk
      · refine .inr ⟨1, ?_⟩
        rw [run_of_stopped hshows.stopped, run_succ hgrown]
        exact hshows

end SoloRun

end DerivativeLexer
