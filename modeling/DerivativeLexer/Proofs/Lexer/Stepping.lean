import DerivativeLexer.Proofs.Lexer.Replaying

/-! # Steps and what they keep of a match

A step does a little more than a move. It remembers an accepting match also where there is nothing
to read, so that the next step finds a bookmark at the place where the engine rested. And when it
has read the last character that is there, it looks at once whether the match is settled. Here a
step is written down as such and shown to be what the moves come to. Of the engine between two
steps the rules, the bookmark and the place are then described in terms of the text read so far
for the match in progress, and of the steps that began within it. -/

namespace DerivativeLexer

open DerivativeLexer.Language (symbols)

variable {τ π : Type}

/-- What a step comes to. -/
inductive Outcome (τ π : Type) where
  /-- Nothing fired. If `more`, another step can be made at once. -/
  | goes (engine : Engine π) (feed : Feed Char) (more : Bool)
  | fires (firing : Firing τ π) (engine : Engine π) (feed : Feed Char) (replays : Bool)
  | ends (firing : Firing τ π) (engine : Engine π)
  | fails (error : LexError) (feed : Feed Char)

def Outcome.of (e : Engine π) (f : Feed Char) : Move τ π → Outcome τ π
  | .rest => .goes e f false
  | .read e' f' => .goes e' f' true
  | .fire firing e' replays => .fires firing e' f replays
  | .last firing e' => .ends firing e'
  | .fail error f' => .fails error f'

namespace Engine

/-- The end of a step. Another one follows if it has something to do; if it has not, a settled
match fires now. -/
def pause (t : RuleTable τ π) (config : LexerConfig) (e : Engine π) (f : Feed Char) :
    Outcome τ π :=
  if !f.plugged e.position.offset || f.ended e.position.offset || e.matching.rejects then
    .goes e f true
  else if e.matching.settled then .of e f (e.accept t config f)
  else .goes e f false

/-- The second half of a step: the end of the input, the next character, or nothing. -/
def stride (t : RuleTable τ π) (config : LexerConfig) (e : Engine π) (f : Feed Char) :
    Outcome τ π :=
  if f.ended e.position.offset then .of e f (e.finish t config f)
  else
    match f.head? e.position.offset with
    | some (c, next) =>
      match (e.absorb config c next : Move τ π) with
      | .read e' f' => e'.pause t config f'
      | move => .of e f move
    | none => e.pause t config f

def step (t : RuleTable τ π) (config : LexerConfig) (e : Engine π) (f : Feed Char) :
    Outcome τ π :=
  if e.matching.settled then .of e f (e.accept t config f)
  else if e.matching.accepts then e.mark.stride t config f
  else if e.matching.rejects then .of e f (e.backtrack t config f)
  else e.stride t config f

/-- The engine with an accepting match remembered. -/
def noted (e : Engine π) : Engine π := if e.matching.accepts then e.mark else e

end Engine

/-! ### Steps and moves -/

/-- What a move comes to as a step of an engine that is `rested` if it rests. -/
def Move.outcome (t : RuleTable τ π) (config : LexerConfig) (rested : Engine π) (f : Feed Char) :
    Move τ π → Outcome τ π
  | .rest => .goes rested f false
  | .read e' f' => e'.pause t config f'
  | .fire firing e' replays => .fires firing e' f replays
  | .last firing e' => .ends firing e'
  | .fail error f' => .fails error f'

/-- The move fires a rule or fails. -/
def Move.Acts : Move τ π → Prop
  | .rest => False
  | .read _ _ => False
  | _ => True

theorem Move.Acts.of_eq_outcome {move : Move τ π} (h : move.Acts) (t : RuleTable τ π)
    (config : LexerConfig) (e rested : Engine π) (f : Feed Char) :
    Outcome.of e f move = move.outcome t config rested f := by
  cases move with
  | rest => exact h.elim
  | read e' f' => exact h.elim
  | _ => rfl

theorem Move.Acts.ne_read {move : Move τ π} (h : move.Acts) (e : Engine π) (f : Feed Char) :
    move ≠ .read e f := by
  rintro rfl
  exact h

theorem Matching.not_rejects_of_accepts {m : Matching} (h : m.accepts = true) :
    m.rejects = false := by
  obtain ⟨r, hr, haccepts⟩ := List.any_eq_true.1 h
  rw [← Bool.not_eq_true, rejects, List.all_eq_true]
  intro hall
  have hrejects := (Language.rejectsAll_iff r.language).1 (hall r hr)
  rw [FormalLanguage.eq_zero_iff] at hrejects
  exact hrejects [] ((Language.acceptsEmpty_iff r.language).1 haccepts)

namespace Engine

section

variable {t : RuleTable τ π} {config : LexerConfig} {e e' : Engine π} {f f' : Feed Char}
  {more replays : Bool} {firing : Firing τ π}

theorem acts_fireAt (m : Matching) (stop : Position) (replays : Bool) :
    (e.fireAt t config f m stop replays).Acts := by
  unfold fireAt
  split
  · trivial
  · trivial

theorem acts_backtrack : (e.backtrack t config f).Acts := by
  unfold backtrack
  split
  · trivial
  · exact acts_fireAt _ _ _

theorem acts_finish : (e.finish t config f).Acts := by
  simp only [finish]
  split_ifs
  · split
    · trivial
    · trivial
  · exact acts_backtrack

theorem stride_eq (hsettled : e.matching.settled = false) (hrejects : e.matching.rejects = false) :
    e.stride t config f = (e.advance t config f).outcome t config e f := by
  unfold stride advance
  split_ifs with hended
  · exact acts_finish.of_eq_outcome t config e e f
  · cases hhead : f.head? e.position.offset with
    | some drawn =>
      obtain ⟨c, next⟩ := drawn
      rcases absorb_cases τ config e next c with ⟨error, feed, hfail⟩ | ⟨e', hread, -⟩
      · simp only [hfail]
        rfl
      · simp only [hread]
        rfl
    | none =>
      have hplugged := Feed.head?_eq_none_iff.1 hhead
      simp [pause, hplugged, hended, hrejects, hsettled, Move.outcome]

/-- A step is what a move comes to: at rest an accepting match is remembered, and behind the
character that was read last a settled match fires at once. -/
theorem step_eq (t : RuleTable τ π) (config : LexerConfig) (e : Engine π) (f : Feed Char) :
    e.step t config f = (e.move t config f).outcome t config e.noted f := by
  unfold step move noted
  split_ifs with hsettled haccepts haccepts hrejects
  · exact (acts_fireAt _ _ _).of_eq_outcome t config e _ f
  · exact (acts_fireAt _ _ _).of_eq_outcome t config e _ f
  · exact stride_eq (e := e.mark) (Bool.not_eq_true _ ▸ hsettled)
      (Matching.not_rejects_of_accepts haccepts)
  · exact acts_backtrack.of_eq_outcome t config e _ f
  · exact stride_eq (Bool.not_eq_true _ ▸ hsettled) (Bool.not_eq_true _ ▸ hrejects)

/-- Whether the match is remembered already makes no difference to the next move. -/
theorem move_noted (t : RuleTable τ π) (config : LexerConfig) (e : Engine π) (f : Feed Char) :
    e.noted.move t config f = e.move t config f := by
  by_cases haccepts : e.matching.accepts = true
  · have hmark : e.mark.matching.accepts = true := haccepts
    rw [noted, if_pos haccepts, move, move, if_pos haccepts, if_pos hmark]
    rfl
  · rw [noted, if_neg haccepts]

theorem pause_cases (t : RuleTable τ π) (config : LexerConfig) (e : Engine π) (f : Feed Char) :
    (∃ more, e.pause t config f = .goes e f more) ∨
      (∃ firing e' replays, e.pause t config f = .fires firing e' f replays ∧
        e.move t config f = .fire firing e' replays) ∨
      ∃ error f', e.pause t config f = .fails error f' := by
  unfold pause
  split_ifs with hmore hsettled
  · exact .inl ⟨true, rfl⟩
  · rw [move, if_pos hsettled, accept]
    rcases fireAt_cases t config e f e.matching e.position false with
      ⟨error, feed, hfail⟩ | ⟨firing, e', hfire, -⟩
    · rw [hfail]
      exact .inr (.inr ⟨error, feed, rfl⟩)
    · rw [hfire]
      exact .inr (.inl ⟨firing, e', _, rfl, rfl⟩)
  · exact .inl ⟨false, rfl⟩

/-- A step in which nothing fires has rested or has read a character. -/
theorem of_step_goes (h : e.step t config f = .goes e' f' more) :
    (e.move t config f = .rest ∧ e' = e.noted ∧ f' = f) ∨ e.move t config f = .read e' f' := by
  rw [step_eq] at h
  cases hmove : e.move t config f with
  | rest =>
    rw [hmove] at h
    obtain ⟨rfl, rfl, -⟩ := Outcome.goes.inj h
    exact .inl ⟨rfl, rfl, rfl⟩
  | read e₁ f₁ =>
    rw [hmove] at h
    rcases pause_cases t config e₁ f₁ with
      ⟨more', hgoes⟩ | ⟨firing, e₂, replays, hfires, -⟩ | ⟨error, f₂, hfails⟩
    · obtain ⟨rfl, rfl, -⟩ := Outcome.goes.inj (hgoes.symm.trans h)
      exact .inr rfl
    · cases hfires.symm.trans h
    · cases hfails.symm.trans h
  | fire firing e₁ replays => cases (hmove ▸ h)
  | last firing e₁ => cases (hmove ▸ h)
  | fail error f₁ => cases (hmove ▸ h)

/-- A step in which a rule fires may have read a character before. -/
theorem of_step_fires (h : e.step t config f = .fires firing e' f' replays) :
    (e.move t config f = .fire firing e' replays ∧ f' = f) ∨
      ∃ e₁, e.move t config f = .read e₁ f' ∧ e₁.move t config f' = .fire firing e' replays := by
  rw [step_eq] at h
  cases hmove : e.move t config f with
  | rest => cases (hmove ▸ h)
  | read e₁ f₁ =>
    rw [hmove] at h
    rcases pause_cases t config e₁ f₁ with
      ⟨more', hgoes⟩ | ⟨firing', e₂, replays', hfires, hmove₁⟩ | ⟨error, f₂, hfails⟩
    · cases hgoes.symm.trans h
    · obtain ⟨rfl, rfl, rfl, rfl⟩ := Outcome.fires.inj (hfires.symm.trans h)
      exact .inr ⟨e₁, rfl, hmove₁⟩
    · cases hfails.symm.trans h
  | fire firing' e₁ replays' =>
    rw [hmove] at h
    obtain ⟨rfl, rfl, rfl, rfl⟩ := Outcome.fires.inj h
    exact .inl ⟨rfl, rfl⟩
  | last firing' e₁ => cases (hmove ▸ h)
  | fail error f₁ => cases (hmove ▸ h)

theorem step_of_fire (h : e.move t config f = .fire firing e' replays) :
    e.step t config f = .fires firing e' f replays := by
  rw [step_eq, h]
  rfl

/-! ### The bookmark -/

theorem bookmark_of_advance (h : e.advance t config f = .read e' f') :
    e'.bookmark = e.bookmark := by
  unfold advance at h
  split_ifs at h
  · exact (acts_finish.ne_read _ _ h).elim
  · split at h
    · simp only [absorb] at h
      split at h
      · cases h
      · obtain ⟨rfl, -⟩ := Move.read.inj h
        rfl
    · cases h

theorem bookmark_of_read (h : e.move t config f = .read e' f') :
    e'.bookmark = e.noted.bookmark := by
  unfold move at h
  split_ifs at h with hsettled haccepts hrejects
  · exact ((acts_fireAt _ _ _).ne_read _ _ h).elim
  · rw [noted, if_pos haccepts]
    exact bookmark_of_advance h
  · exact (acts_backtrack.ne_read _ _ h).elim
  · rw [noted, if_neg haccepts]
    exact bookmark_of_advance h

theorem bookmark_of_fireAt {m : Matching} {stop : Position}
    {replayed : Bool} (h : e.fireAt t config f m stop replayed = .fire firing e' replays) :
    e'.bookmark = none := by
  unfold fireAt at h
  split at h
  · cases h
  · obtain ⟨-, rfl, -⟩ := Move.fire.inj h
    rfl

theorem bookmark_of_backtrack (h : e.backtrack t config f = .fire firing e' replays) :
    e'.bookmark = none := by
  unfold backtrack at h
  split at h
  · cases h
  · exact bookmark_of_fireAt h

theorem bookmark_of_fire_advance (h : e.advance t config f = .fire firing e' replays) :
    e'.bookmark = none := by
  unfold advance at h
  split_ifs at h
  · simp only [finish] at h
    split_ifs at h
    · split at h
      · cases h
      · cases h
    · exact bookmark_of_backtrack h
  · split at h
    next c next hhead =>
      rcases absorb_cases τ config e next c with ⟨error, feed, hfail⟩ | ⟨e'', hread, -⟩
      · cases hfail.symm.trans h
      · cases hread.symm.trans h
    next => cases h

theorem bookmark_of_fire (h : e.move t config f = .fire firing e' replays) :
    e'.bookmark = none := by
  unfold move at h
  split_ifs at h
  · exact bookmark_of_fireAt h
  · exact bookmark_of_fire_advance h
  · exact bookmark_of_backtrack h
  · exact bookmark_of_fire_advance h

end

end Engine

/-! ### Between two steps -/

/-- An engine that was started at `k`, between two steps, with the offsets at which the steps began
that it made within the match in progress. -/
inductive Stepped (l : Lexer τ π) (k : Nat) : List Nat → Engine π → Feed Char → Prop
  | start {f : Feed Char} (hreached : f.Reached k) : Stepped l k [] (.start l.rules k) f
  /-- The source grows or is closed, or somebody else reads from it. -/
  | others {visits : List Nat} {e : Engine π} {f : Feed Char} (h : Stepped l k visits e f)
      (source : Source Char) : Stepped l k visits e ⟨source, f.reader⟩
  | goes {visits : List Nat} {e e' : Engine π} {f f' : Feed Char} {more : Bool}
      (h : Stepped l k visits e f) (hstep : e.step l.rules l.config f = .goes e' f' more) :
      Stepped l k (visits ++ [e.position.offset]) e' f'
  | fires {visits : List Nat} {e e' : Engine π} {f f' : Feed Char} {firing : Firing τ π}
      {replays : Bool} (h : Stepped l k visits e f)
      (hstep : e.step l.rules l.config f = .fires firing e' f' replays) : Stepped l k [] e' f'
  /-- In the middle of a step, behind the character that it has read. -/
  | amid {visits : List Nat} {e e' : Engine π} {f f' : Feed Char} (h : Stepped l k visits e f)
      (hmove : e.move l.rules l.config f = .read e' f') :
      Stepped l k (visits ++ [e.position.offset]) e' f'

namespace Engine

/-- The text read so far for the match in progress. -/
def textSoFar (r : Reader Char) (e : Engine π) : List Char :=
  r.between e.matching.start.offset e.position.offset

/-- A step began behind `p`, a beginning of the text, and some rule of the state has it. -/
def Attests (t : RuleTable τ π) (e : Engine π) (text : List Char) (visits : List Nat)
    (p : List Char) : Prop :=
  p <+: text ∧ e.matching.start.offset + p.length ∈ visits ∧
    ∃ i, t.Matches e.matching.origin (symbols p) i

/-- What the state of a match in progress is. -/
structure Transient (t : RuleTable τ π) (r : Reader Char) (visits : List Nat) (e : Engine π) :
    Prop where
  position_eq : e.position = e.matching.start.advanceBy (e.textSoFar r)
  /-- The rules of the state in their order, each with the derivative by the text. Those that
  reject everything are left out once something was read. -/
  live_eq : e.matching.live =
    (t.derivatives e.matching.origin (symbols (e.textSoFar r))).filter fun rule =>
      (e.textSoFar r).isEmpty || !rule.language.rejectsAll
  marked : ∀ m, e.bookmark = some m → ∃ p, e.Attests t (e.textSoFar r) visits p ∧
    (∀ q, e.Attests t (e.textSoFar r) visits q → q.length ≤ p.length) ∧
    m.matching = .after t e.matching.origin e.matching.start (symbols p) ∧
    m.position = e.matching.start.advanceBy p
  unmarked : e.bookmark = none → ∀ p, p <+: e.textSoFar r → p ≠ e.textSoFar r →
    ∀ i, ¬t.Matches e.matching.origin (symbols p) i
  /-- However the text goes on, and whether the end mark comes behind it, the rule that then wins is
  the first one that would win had none been left out. -/
  winner_eq : ∀ word : List Symbol,
    (word.foldl Matching.derive e.matching).winner? =
      (t.rules e.matching.origin).findIdx? fun rule =>
        (rule.pattern.deriveWord (symbols (e.textSoFar r) ++ word)).acceptsEmpty

/-- The steps that began within a match, and the bookmark. -/
structure Attended (t : RuleTable τ π) (visits : List Nat) (e : Engine π) (read : List Char) :
    Prop where
  visited : ∀ p, p <+: read → p.length < read.length →
    e.matching.start.offset + p.length ∈ visits
  visits_le : ∀ v ∈ visits, v ≤ e.position.offset
  remembered : ∀ q, e.Attests t read visits q → e.Remembers q
  bookmarked : ∀ m, e.bookmark = some m → m.position.offset ∈ visits

section

variable {t : RuleTable τ π} {config : LexerConfig} {e e' : Engine π} {f f' : Feed Char}
  {visits : List Nat} {read ahead : List Char}

theorem attended_fresh (hbookmark : e.bookmark = none) : Attended t [] e [] where
  visited := fun _ _ hlt => (Nat.not_lt_zero _ hlt).elim
  visits_le := fun _ hv => nomatch hv
  remembered := by
    rintro q ⟨-, hvisit, -⟩
    cases hvisit
  bookmarked := by
    intro m hm
    rw [hbookmark] at hm
    cases hm

theorem noted_fields (e : Engine π) :
    e.noted.matching = e.matching ∧ e.noted.position = e.position := by
  unfold noted
  split_ifs
  · exact ⟨rfl, rfl⟩
  · exact ⟨rfl, rfl⟩

theorem Tracks.noted (h : Tracks t f e read ahead) : Tracks t f e.noted read ahead := by
  unfold Engine.noted
  split_ifs with haccepts
  · exact (h.mark haccepts).1
  · exact h

/-- A step that begins here remembers the match if it is accepting. -/
theorem Attended.noted (h : Attended t visits e read) (htracks : Tracks t f e read ahead) :
    Attended t (visits ++ [e.position.offset]) e.noted read := by
  obtain ⟨hmatching, hposition⟩ := noted_fields e
  refine ⟨fun p hp hlt => ?_, fun v hv => ?_, ?_, fun m hm => ?_⟩
  · rw [hmatching]
    exact List.mem_append_left _ (h.visited p hp hlt)
  · rw [hposition]
    rcases List.mem_append.1 hv with hv | hv
    · exact h.visits_le v hv
    · exact Nat.le_of_eq (List.mem_singleton.1 hv)
  · rintro q ⟨hq, hvisit, hmatch⟩
    rw [hmatching] at hvisit hmatch
    by_cases haccepts : e.matching.accepts = true
    · obtain ⟨m, hm, hle⟩ := (htracks.mark haccepts).2 q hq hmatch
      rw [Engine.noted, if_pos haccepts]
      exact ⟨m, hm, hle⟩
    · rw [Engine.noted, if_neg haccepts]
      refine h.remembered q ⟨hq, ?_, hmatch⟩
      rcases List.mem_append.1 hvisit with hvisit | hvisit
      · exact hvisit
      · -- no rule has all that was read
        have hoffset := List.mem_singleton.1 hvisit
        rw [htracks.position_offset, Nat.add_left_cancel_iff] at hoffset
        rw [hq.eq_of_length hoffset, ← htracks.accepts_iff] at hmatch
        exact (haccepts hmatch).elim
  · unfold Engine.noted at hm
    split_ifs at hm
    · obtain rfl := Option.some.inj hm
      exact List.mem_append_right _ (List.mem_singleton_self _)
    · exact List.mem_append_left _ (h.bookmarked m hm)

/-- Behind the next character no step has begun yet. -/
theorem Attended.behind (h : Attended t visits e read) (htracks : Tracks t f e read ahead)
    (hhere : e.position.offset ∈ visits) {c : Char} {left : List Char}
    (htracks' : Tracks t f' e' (read ++ [c]) left)
    (horigin : e'.matching.origin = e.matching.origin)
    (hstart : e'.matching.start = e.matching.start) (hbookmark : e'.bookmark = e.bookmark) :
    Attended t visits e' (read ++ [c]) := by
  have hoffset := htracks.position_offset
  have hoffset' := htracks'.position_offset
  rw [hstart, List.length_append, List.length_singleton] at hoffset'
  refine ⟨fun p hp hlt => ?_, fun v hv => ?_, ?_, fun m hm => ?_⟩
  · rw [List.length_append, List.length_singleton] at hlt
    have hp' : p <+: read :=
      List.prefix_of_prefix_length_le hp (List.prefix_append read [c]) (Nat.le_of_lt_succ hlt)
    rw [hstart]
    rcases Nat.lt_succ_iff_lt_or_eq.1 hlt with hshort | hwhole
    · exact h.visited p hp' hshort
    · rwa [hwhole, ← hoffset]
  · have hle := h.visits_le v hv
    omega
  · rintro q ⟨hq, hvisit, hmatch⟩
    rw [hstart] at hvisit
    rw [horigin] at hmatch
    have hle := h.visits_le _ hvisit
    have hq' : q <+: read :=
      List.prefix_of_prefix_length_le hq (List.prefix_append read [c]) (by omega)
    obtain ⟨m, hm, hlast⟩ := h.remembered q ⟨hq', hvisit, hmatch⟩
    exact ⟨m, hbookmark.trans hm, hstart ▸ hlast⟩
  · rw [hbookmark] at hm
    exact h.bookmarked m hm

theorem Tracks.textSoFar_eq (h : Tracks t f e read ahead) : e.textSoFar f.reader = read := by
  rw [textSoFar, Feed.between_eq h.start_le h.reached_position.2, h.text_eq, h.position_offset,
    Nat.add_sub_cancel_left, List.take_left]

theorem Attended.transient (h : Attended t visits e read) (htracks : Tracks t f e read ahead) :
    Transient t f.reader visits e := by
  have hmatching := htracks.matching_eq
  constructor
  · rw [htracks.textSoFar_eq]
    exact htracks.position_eq
  · rw [htracks.textSoFar_eq, hmatching, Matching.live_after, Matching.origin_after]
    refine List.filter_congr fun rule _ => ?_
    rw [symbols, List.isEmpty_map]
  · rw [htracks.textSoFar_eq]
    intro m hm
    obtain ⟨p, hp, hstate, hposition, hmatch⟩ := htracks.marked m hm
    have hoffset : m.position.offset = e.matching.start.offset + p.length := by
      rw [hposition, Position.offset_advanceBy]
    refine ⟨p, ⟨hp, hoffset ▸ h.bookmarked m hm, hmatch⟩, fun q hq => ?_, hstate, hposition⟩
    obtain ⟨m', hm', hle⟩ := h.remembered q hq
    obtain rfl := Option.some.inj (hm.symm.trans hm')
    omega
  · rw [htracks.textSoFar_eq]
    intro hnone p hp hproper i hmatch
    have hlt : p.length < read.length :=
      Nat.lt_of_le_of_ne hp.length_le fun heq => hproper (hp.eq_of_length heq)
    obtain ⟨m, hm, -⟩ := h.remembered p ⟨hp, h.visited p hp hlt, i, hmatch⟩
    rw [hnone] at hm
    cases hm
  · rw [htracks.textSoFar_eq]
    intro word
    have hafter : word.foldl Matching.derive e.matching =
        .after t e.matching.origin e.matching.start (symbols read ++ word) := by
      rw [Matching.after, List.foldl_append]
      exact congrArg (word.foldl Matching.derive) hmatching
    rw [hafter, Matching.winner?_after]

end

end Engine

namespace Stepped

variable {l : Lexer τ π} {k : Nat} {visits : List Nat} {e e' : Engine π} {f f' : Feed Char}

theorem attended_read {read ahead : List Char} (htracks : Engine.Tracks l.rules f e read ahead)
    (h : e.Attended l.rules visits read) (hmove : e.move l.rules l.config f = .read e' f') :
    ∃ read ahead, Engine.Tracks l.rules f' e' read ahead ∧
      e'.Attended l.rules (visits ++ [e.position.offset]) read := by
  have hexplains := Engine.explains_move l.config htracks
  rw [hmove] at hexplains
  cases hexplains with
  | read hahead hreads htracks' horigin hstart =>
    obtain ⟨hmatching, hposition⟩ := Engine.noted_fields e
    refine ⟨_, _, htracks', (h.noted htracks).behind htracks.noted ?_ htracks' ?_ ?_
      (Engine.bookmark_of_read hmove)⟩
    · rw [hposition]
      exact List.mem_append_right _ (List.mem_singleton_self _)
    · rw [horigin, hmatching]
    · rw [hstart, hmatching]

theorem attended_fire {read ahead : List Char} (htracks : Engine.Tracks l.rules f e read ahead)
    {firing : Firing τ π} {replays : Bool}
    (hmove : e.move l.rules l.config f = .fire firing e' replays) :
    ∃ read ahead, Engine.Tracks l.rules f e' read ahead ∧ e'.Attended l.rules [] read := by
  have hexplains := Engine.explains_move l.config htracks
  rw [hmove] at hexplains
  cases hexplains with
  | fire htext hwins hbeyond hfiring htracks' =>
    exact ⟨_, _, htracks', Engine.attended_fresh (Engine.bookmark_of_fire hmove)⟩

theorem attended (h : Stepped l k visits e f) :
    ∃ read ahead, Engine.Tracks l.rules f e read ahead ∧ e.Attended l.rules visits read := by
  induction h with
  | start hreached =>
    exact ⟨_, _, Engine.tracks_enter l.rules hreached, Engine.attended_fresh rfl⟩
  | others h source ih =>
    obtain ⟨read, ahead, htracks, hattended⟩ := ih
    obtain ⟨ahead', htracks'⟩ := Engine.Tracks.exists_of_source htracks source
    exact ⟨read, ahead', htracks', hattended⟩
  | goes h hstep ih =>
    obtain ⟨read, ahead, htracks, hattended⟩ := ih
    rcases Engine.of_step_goes hstep with ⟨-, rfl, rfl⟩ | hmove
    · exact ⟨read, ahead, htracks.noted, hattended.noted htracks⟩
    · exact attended_read htracks hattended hmove
  | fires h hstep ih =>
    obtain ⟨read, ahead, htracks, hattended⟩ := ih
    rcases Engine.of_step_fires hstep with ⟨hmove, rfl⟩ | ⟨e₁, hread, hmove⟩
    · exact attended_fire htracks hmove
    · obtain ⟨read₁, ahead₁, htracks₁, -⟩ := attended_read htracks hattended hread
      exact attended_fire htracks₁ hmove
  | amid h hmove ih =>
    obtain ⟨read, ahead, htracks, hattended⟩ := ih
    exact attended_read htracks hattended hmove

theorem transient (h : Stepped l k visits e f) : e.Transient l.rules f.reader visits := by
  obtain ⟨read, ahead, htracks, hattended⟩ := h.attended
  exact hattended.transient htracks

/-- A move that fires is all of its step. -/
theorem fire {firing : Firing τ π} {replays : Bool} (h : Stepped l k visits e f)
    (hmove : e.move l.rules l.config f = .fire firing e' replays) : Stepped l k [] e' f :=
  h.fires (Engine.step_of_fire hmove)

end Stepped

end DerivativeLexer
