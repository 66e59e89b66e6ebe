import DerivativeLexer.Proofs.Lexer.Growth
import DerivativeLexer.Proofs.Lexer.MaximalMunch

/-! # Runs come to rest

A run cannot go on for ever on the input that is there. It has its place in a text, and every
move either reads a character of what is ahead, or fires a match that is not empty and leaves the
rest of the text, or stops it. So after a bounded number of moves the run has stopped or has
nothing to read, and the same is true again whenever its input has grown. -/

namespace DerivativeLexer

variable {τ π : Type}

theorem Feed.textFrom_grow {α : Type} {f : Feed α} {offset : Nat} (ho : f.Reached offset)
    (items : List α) (closing : Bool) :
    (f.grow items closing).textFrom offset =
      f.textFrom offset ++ if f.source.closed then [] else items := by
  cases hclosed : f.source.closed with
  | true => rw [grow_of_closed hclosed, if_pos rfl, List.append_nil]
  | false =>
    have hle : offset - f.reader.start ≤ f.text.length := by
      have hreach := ho.2
      rw [Reader.reach] at hreach
      rw [text, List.length_append, Array.length_toList]
      omega
    have htext : (f.grow items closing).text = f.text ++ items := by
      simp only [text, grow, Source.grow, hclosed, Bool.false_eq_true, if_false,
        List.append_assoc]
    have hreader : (f.grow items closing).reader = f.reader := rfl
    rw [textFrom, htext, hreader, List.drop_append_of_le_length hle]
    rfl

namespace Engine

theorem Tracks.grow {t : RuleTable τ π} {f : Feed Char} {e : Engine π} {read ahead : List Char}
    (h : Tracks t f e read ahead) (items : List Char) (closing : Bool) :
    Tracks t (f.grow items closing) e read (ahead ++ if f.source.closed then [] else items) where
  start_le := h.start_le
  text_eq := by
    rw [Feed.textFrom_grow h.reached_start, h.text_eq, List.append_assoc]
  matching_eq := h.matching_eq
  position_eq := h.position_eq
  position_le := h.position_le
  frontier_le := h.frontier_le
  marked := h.marked
  covered := h.covered

end Engine

namespace SoloRun

variable {l : Lexer τ π} {s : SoloRun τ π}

/-- As long as it is live, the run has its place in a text. -/
def Placed (l : Lexer τ π) (s : SoloRun τ π) : Prop :=
  s.status.isLive = true →
    ∃ read ahead, Engine.Tracks l.rules s.feed s.engine read ahead

theorem step_tracks {read ahead : List Char} (hlive : s.status.isLive = true)
    (htracks : Engine.Tracks l.rules s.feed s.engine read ahead) :
    s.engine.move l.rules l.config s.feed = .rest ∨ (s.step l).status.isLive = false ∨
      ((s.step l).status.isLive = true ∧ ∃ read' ahead',
        Engine.Tracks l.rules (s.step l).feed (s.step l).engine read' ahead' ∧
          movesFor read' ahead' + 1 ≤ movesFor read ahead) := by
  have hmove := Engine.explains_move l.config htracks
  rw [step]
  generalize s.engine.move l.rules l.config s.feed = move at hmove
  cases hmove with
  | rest hahead hopen => exact .inl rfl
  | @read c left e' f' hahead hreads htracks' =>
    subst hahead
    exact .inr (.inr ⟨SessionStatus.isLive_afterRead hlive _, _, _, htracks',
      Nat.le_of_eq (movesFor_read read c left)⟩)
  | @fire p q i firing e' replays htext hwins hbeyond hfiring htracks' =>
    have hne : p ≠ [] := by
      intro hp
      rw [hp] at hwins
      exact RuleTable.not_matches_nil l.productive _ _ hwins.1
    exact .inr (.inr ⟨SessionStatus.isLive_afterFire hlive _, _, _, htracks',
      movesFor_fire htext hne⟩)
  | last hahead hclosed hwins hfiring => exact .inr (.inl rfl)
  | deadEnd hreads hbeyond => exact .inr (.inl rfl)
  | tooLong hahead hreads hmax hlimit => exact .inr (.inl rfl)

theorem run_settles (fuel : Nat) {read ahead : List Char} (hlive : s.status.isLive = true)
    (htracks : Engine.Tracks l.rules s.feed s.engine read ahead)
    (hfuel : movesFor read ahead ≤ fuel) : (s.run l fuel).Settled l := by
  induction fuel generalizing s read ahead with
  | zero =>
    unfold movesFor at hfuel
    omega
  | succ fuel ih =>
    rw [run_succ hlive]
    rcases step_tracks hlive htracks with hrest | hstopped | ⟨hlive', read', ahead', htracks', hle⟩
    · rw [step_of_rest hrest, run_of_settled fun _ => hrest]
      exact fun _ => hrest
    · rw [run_of_stopped hstopped]
      exact settled_of_stopped hstopped
    · exact ih hlive' htracks' (by omega)

namespace Placed

theorem settles (h : s.Placed l) : ∃ k, (s.run l k).Settled l := by
  cases hlive : s.status.isLive with
  | false => exact ⟨0, settled_of_stopped hlive⟩
  | true =>
    obtain ⟨read, ahead, htracks⟩ := h hlive
    exact ⟨movesFor read ahead, run_settles _ hlive htracks (Nat.le_refl _)⟩

theorem step (h : s.Placed l) (hlive : s.status.isLive = true) : (s.step l).Placed l := by
  obtain ⟨read, ahead, htracks⟩ := h hlive
  rcases step_tracks hlive htracks with hrest | hstopped | ⟨-, read', ahead', htracks', -⟩
  · rw [step_of_rest hrest]
    exact h
  · intro hlive'
    rw [hstopped] at hlive'
    cases hlive'
  · exact fun _ => ⟨read', ahead', htracks'⟩

theorem run (h : s.Placed l) (k : Nat) : (s.run l k).Placed l := by
  induction k generalizing s with
  | zero => exact h
  | succ k ih =>
    cases hlive : s.status.isLive with
    | false =>
      rw [run_of_stopped hlive]
      exact h
    | true =>
      rw [run_succ hlive]
      exact ih (h.step hlive)

theorem grow (h : s.Placed l) (items : List Char) (closing : Bool) :
    (s.grow items closing).Placed l := by
  intro hlive
  obtain ⟨read, ahead, htracks⟩ := h hlive
  exact ⟨read, _, htracks.grow items closing⟩

end Placed

end SoloRun

end DerivativeLexer
