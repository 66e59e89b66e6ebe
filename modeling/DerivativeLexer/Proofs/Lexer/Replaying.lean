import DerivativeLexer.Proofs.Lexer.Moves

/-! # Reading again

After a match that ended before the furthest character read, the engine reads the characters
behind it again. While it does so it never rests, because all of them are still in the memory of
its reader. Nothing of this depends on what the source holds, so somebody else may read from the
source meanwhile. -/

namespace DerivativeLexer

open DerivativeLexer.Language (symbols)

variable {τ π : Type}

/-- The errors that an engine stops with. -/
inductive LexError.Stops : LexError → Prop
  | deadEnd (place : Position) (remaining : String) : Stops (.deadEnd place remaining)
  | matchTooLong (limit line column : Nat) : Stops (.matchTooLong limit line column)

namespace Engine

variable {t : RuleTable τ π} {config : LexerConfig} {e e' : Engine π} {f f' : Feed Char}
  {r : Reader Char} {read ahead : List Char}

/-! ### Places in a reader -/

/-- The engine has its place in what the reader has drawn, whatever comes behind that. -/
def Placed (t : RuleTable τ π) (r : Reader Char) (e : Engine π) : Prop :=
  ∃ source read ahead, Tracks t ⟨source, r⟩ e read ahead

theorem Tracks.placed (h : Tracks t f e read ahead) : Placed t f.reader e := ⟨_, _, _, h⟩

theorem Tracks.exists_of_source {source : Source Char} (h : Tracks t ⟨source, r⟩ e read ahead)
    (other : Source Char) : ∃ ahead', Tracks t ⟨other, r⟩ e read ahead' := by
  have hlength : e.matching.start.offset - r.start + read.length ≤ r.drawn.toList.length := by
    have hstart : r.start ≤ e.matching.start.offset := h.start_le
    have hoffset := h.position_offset
    have hposition := h.position_le
    have hfrontier : e.frontier ≤ r.start + r.drawn.toList.length := h.frontier_le
    omega
  have hdrop : ∀ other : Source Char,
      (⟨other, r⟩ : Feed Char).textFrom e.matching.start.offset =
        r.drawn.toList.drop (e.matching.start.offset - r.start) ++ other.queue := fun other => by
    rw [Feed.textFrom, Feed.text, List.drop_append_of_le_length]
    exact Nat.le_trans (Nat.le_add_right _ _) hlength
  have htext := h.text_eq
  rw [hdrop] at htext
  obtain ⟨drawn, hdrawn⟩ : read <+: r.drawn.toList.drop (e.matching.start.offset - r.start) := by
    refine List.prefix_of_prefix_length_le ?_ (List.prefix_append _ source.queue) ?_
    · rw [htext]
      exact List.prefix_append read ahead
    · rw [List.length_drop]
      omega
  refine ⟨drawn ++ other.queue, h.start_le, ?_, h.matching_eq, h.position_eq, h.position_le,
    h.frontier_le, h.marked, h.covered⟩
  rw [hdrop, ← hdrawn, List.append_assoc]

theorem Placed.tracks (h : Placed t f.reader e) : ∃ read ahead, Tracks t f e read ahead := by
  obtain ⟨source, read, ahead, htracks⟩ := h
  obtain ⟨ahead', htracks'⟩ := htracks.exists_of_source f.source
  exact ⟨read, ahead', htracks'⟩

theorem placed_start {offset : Nat} (h : r.start ≤ offset ∧ offset ≤ r.reach) :
    Placed t r (start t offset) :=
  (tracks_enter (f := ⟨.fresh, r⟩) t h).placed

/-! ### What the parts of a move change -/

theorem deadEnd_eq_fail (config : LexerConfig) (e : Engine π) (f : Feed Char) :
    ∃ error feed, (e.deadEnd config f : Move τ π) = .fail error feed := ⟨_, _, rfl⟩

theorem fireAt_cases (t : RuleTable τ π) (config : LexerConfig) (e : Engine π) (f : Feed Char)
    (m : Matching) (stop : Position) (replays : Bool) :
    (∃ error feed, e.fireAt t config f m stop replays = .fail error feed) ∨
      ∃ firing e', e.fireAt t config f m stop replays = .fire firing e' replays ∧
        e'.frontier = e.frontier ∧ e'.position = stop := by
  unfold fireAt
  cases e.fire? t f.reader m stop with
  | none => exact .inl (deadEnd_eq_fail config e f)
  | some firing => exact .inr ⟨firing, _, rfl, rfl, rfl⟩

/-- The engine goes back to a place that it has passed, if it goes back at all. -/
theorem backtrack_cases (t : RuleTable τ π) (config : LexerConfig) (e : Engine π) (f : Feed Char) :
    (∃ error feed, e.backtrack t config f = .fail error feed) ∨
      ∃ firing e' m, e.backtrack t config f = .fire firing e' e'.replaying ∧
        e'.frontier = e.frontier ∧ e.bookmark = some m ∧ e'.position = m.position := by
  unfold backtrack
  cases hmark : e.bookmark with
  | none => exact .inl (deadEnd_eq_fail config e f)
  | some m =>
    rcases fireAt_cases t config e f m.matching m.position (m.position.offset < e.frontier) with
      hfail | ⟨firing, e', hfire, hfrontier, hposition⟩
    · exact .inl hfail
    · refine .inr ⟨firing, e', m, ?_, hfrontier, rfl, hposition⟩
      rw [replaying, hfrontier, hposition]
      exact hfire

theorem absorb_cases (τ : Type) (config : LexerConfig) (e : Engine π) (f : Feed Char) (c : Char) :
    (∃ error feed, (e.absorb config c f : Move τ π) = .fail error feed) ∨
      ∃ e', (e.absorb config c f : Move τ π) = .read e' f ∧
        e'.position.offset = e.position.offset + 1 ∧
        e'.frontier = max e.frontier (e.position.offset + 1) := by
  simp only [absorb]
  split
  · exact .inl ⟨_, _, rfl⟩
  · refine .inr ⟨_, rfl, Position.offset_advance .., ?_⟩
    rw [Position.offset_advance]

/-- What a move does to the place of the engine and to the furthest place. A rule that fires leaves
characters to be read again if the engine goes back for them, or if it was reading some again. -/
inductive Shifts (e : Engine π) : Move τ π → Prop
  | rest : Shifts e .rest
  | read {e' : Engine π} {f' : Feed Char} (hposition : e'.position.offset = e.position.offset + 1)
      (hfrontier : e'.frontier = max e.frontier (e.position.offset + 1)) :
      Shifts e (.read e' f')
  | fire {firing : Firing τ π} {e' : Engine π} {replays : Bool}
      (hposition : e'.position.offset ≤ e.position.offset) (hfrontier : e'.frontier = e.frontier)
      (hreplays : e'.replaying = true ↔ replays = true ∨ e.replaying = true) :
      Shifts e (.fire firing e' replays)
  | last {firing : Firing τ π} {e' : Engine π} : Shifts e (.last firing e')
  | fail {error : LexError} {f' : Feed Char} : Shifts e (.fail error f')

theorem shifts_accept : Shifts e (e.accept t config f) := by
  rcases fireAt_cases t config e f e.matching e.position false with
    ⟨error, feed, hfail⟩ | ⟨firing, e', hfire, hfrontier, hposition⟩
  · rw [accept, hfail]
    exact .fail
  · rw [accept, hfire]
    refine .fire (Nat.le_of_eq (congrArg _ hposition)) hfrontier ?_
    rw [replaying, replaying, hfrontier, hposition]
    simp

theorem shifts_backtrack (h : ∀ m, e.bookmark = some m → m.position.offset ≤ e.position.offset) :
    Shifts e (e.backtrack t config f) := by
  rcases backtrack_cases t config e f with
    ⟨error, feed, hfail⟩ | ⟨firing, e', m, hfire, hfrontier, hmark, hposition⟩
  · rw [hfail]
    exact .fail
  · have hle : e'.position.offset ≤ e.position.offset := hposition ▸ h m hmark
    rw [hfire]
    refine .fire hle hfrontier ⟨.inl, fun hreplaying => hreplaying.elim id fun hbefore => ?_⟩
    rw [replaying, decide_eq_true_iff] at hbefore ⊢
    omega

theorem shifts_advance (h : ∀ m, e.bookmark = some m → m.position.offset ≤ e.position.offset) :
    Shifts e (e.advance t config f) := by
  unfold advance
  split_ifs
  · simp only [finish]
    split_ifs
    · split
      · exact .fail
      · exact .last
    · exact shifts_backtrack h
  · split
    next c next hhead =>
      rcases absorb_cases τ config e next c with
        ⟨error, feed, hfail⟩ | ⟨e', hread, hposition, hfrontier⟩
      · rw [hfail]
        exact .fail
      · rw [hread]
        exact .read hposition hfrontier
    next => exact .rest

theorem Tracks.bookmark_le (h : Tracks t f e read ahead) {m : Bookmark}
    (hm : e.bookmark = some m) : m.position.offset ≤ e.position.offset := by
  obtain ⟨p, hp, -, hposition, -⟩ := h.marked m hm
  have hle := hp.length_le
  rw [hposition, h.position_eq, Position.offset_advanceBy, Position.offset_advanceBy]
  omega

theorem shifts_move (config : LexerConfig) (h : Tracks t f e read ahead) :
    Shifts e (e.move t config f) := by
  unfold move
  split_ifs
  · exact shifts_accept
  · -- the bookmark is moved to the place of the engine first
    have hmark : Shifts e.mark (e.mark.advance t config f) := by
      refine shifts_advance fun m hm => ?_
      rw [← Option.some.inj hm]
      exact Nat.le_refl _
    generalize e.mark.advance t config f = move at hmark
    cases hmark with
    | rest => exact .rest
    | read hposition hfrontier => exact .read hposition hfrontier
    | fire hposition hfrontier hreplays => exact .fire hposition hfrontier hreplays
    | last => exact .last
    | fail => exact .fail
  · exact shifts_backtrack fun m hm => h.bookmark_le hm
  · exact shifts_advance fun m hm => h.bookmark_le hm

/-! ### Reading again -/

/-- What is still to be read again is in the memory of the reader. -/
theorem Tracks.not_replaying (h : Tracks t f e read []) : e.replaying = false := by
  have htext := h.textFrom_position
  have hreached := h.reached_position
  rw [Feed.textFrom, List.drop_eq_nil_iff, Feed.text, List.length_append,
    Array.length_toList] at htext
  have hfrontier := h.frontier_le
  rw [Reader.reach] at hfrontier
  have hstart := hreached.1
  rw [replaying, decide_eq_false_iff_not]
  omega

theorem replaying_of_rest (h : Tracks t f e read ahead) (hmove : e.move t config f = .rest) :
    e.replaying = false := by
  have hexplains := explains_move config h
  rw [hmove] at hexplains
  cases hexplains with
  | rest hahead hopen =>
    subst hahead
    exact h.not_replaying

theorem replaying_of_read (h : Tracks t f e read ahead) (hmove : e.move t config f = .read e' f')
    (hreplaying : e'.replaying = true) : e.replaying = true := by
  have hshifts := shifts_move config h
  rw [hmove] at hshifts
  cases hshifts with
  | read hposition hfrontier =>
    rw [replaying, decide_eq_true_iff] at hreplaying ⊢
    omega

theorem replaying_of_fire {firing : Firing τ π} {replays : Bool} (h : Tracks t f e read ahead)
    (hmove : e.move t config f = .fire firing e' replays) :
    e'.replaying = true ↔ replays = true ∨ e.replaying = true := by
  have hshifts := shifts_move config h
  rw [hmove] at hshifts
  cases hshifts with
  | fire hposition hfrontier hreplays => exact hreplays

theorem stops_of_fail {error : LexError} (h : Tracks t f e read ahead)
    (hmove : e.move t config f = .fail error f') : error.Stops := by
  have hexplains := explains_move config h
  rw [hmove] at hexplains
  cases hexplains with
  | deadEnd => exact .deadEnd _ _
  | tooLong => exact .matchTooLong _ _ _

theorem placed_of_read (h : Tracks t f e read ahead) (hmove : e.move t config f = .read e' f') :
    Placed t f'.reader e' := by
  have hexplains := explains_move config h
  rw [hmove] at hexplains
  cases hexplains with
  | read hahead hreads htracks => exact htracks.placed

theorem placed_of_fire {firing : Firing τ π} {replays : Bool} (h : Tracks t f e read ahead)
    (hmove : e.move t config f = .fire firing e' replays) : Placed t f.reader e' := by
  have hexplains := explains_move config h
  rw [hmove] at hexplains
  cases hexplains with
  | fire htext hwins hbeyond hfiring htracks => exact htracks.placed

/-! ### Rest -/

theorem accept_ne_rest : e.accept t config f ≠ .rest := by
  intro hrest
  rcases fireAt_cases t config e f e.matching e.position false with
    ⟨error, feed, hfail⟩ | ⟨firing, e', hfire, -⟩
  · cases hfail.symm.trans hrest
  · cases hfire.symm.trans hrest

theorem backtrack_ne_rest : e.backtrack t config f ≠ .rest := by
  intro hrest
  rcases backtrack_cases t config e f with ⟨error, feed, hfail⟩ | ⟨firing, e', m, hfire, -⟩
  · cases hfail.symm.trans hrest
  · cases hfire.symm.trans hrest

/-- An engine rests only where nothing is to be read, more may come, and the match in progress is
neither settled nor hopeless. -/
theorem rests_of_move (h : Tracks t f e read ahead) (hmove : e.move t config f = .rest) :
    f.plugged e.position.offset = true ∧ f.source.closed = false ∧
      e.matching.rejects = false ∧ e.matching.settled = false := by
  have hexplains := explains_move config h
  rw [hmove] at hexplains
  cases hexplains with
  | rest hahead hopen =>
    subst hahead
    have hhead := Feed.head?_of_textFrom_nil h.reached_position h.textFrom_position
    unfold move at hmove
    split_ifs at hmove with hsettled haccepts hrejects
    · exact (accept_ne_rest hmove).elim
    · -- what is accepted is not hopeless
      have hrejects : ¬e.matching.rejects = true := by
        intro hrejects
        obtain ⟨i, hi⟩ := h.accepts_iff.1 haccepts
        rw [h.matching_eq, Matching.rejects_after] at hrejects
        exact hrejects [] i (by rwa [List.append_nil])
      exact ⟨Feed.head?_eq_none_iff.1 hhead, hopen, Bool.eq_false_iff.2 hrejects,
        Bool.eq_false_iff.2 hsettled⟩
    · exact (backtrack_ne_rest hmove).elim
    · exact ⟨Feed.head?_eq_none_iff.1 hhead, hopen, Bool.eq_false_iff.2 hrejects,
        Bool.eq_false_iff.2 hsettled⟩

end Engine

end DerivativeLexer
