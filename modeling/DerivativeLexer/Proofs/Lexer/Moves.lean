import DerivativeLexer.Proofs.Lexer.LiveRules
import DerivativeLexer.Proofs.Stream.Text

/-! # What a move of the engine can be

Between two moves an engine stands somewhere in a text: it has read a part of it for the match in
progress, its live rules are those of that part, and its bookmark is the longest part so far that
a rule has. The invariant is stated here once. From it every move is explained in terms of the
text and of the patterns as they were declared, and kept by every move that goes on. Whatever the
engine has read, it fires nothing but rules of its table. -/

namespace DerivativeLexer

open DerivativeLexer.Language (symbols)

variable {τ π : Type}

/-! ### What can fire -/

def Move.firing? : Move τ π → Option (Firing τ π)
  | .fire firing _ _ | .last firing _ => some firing
  | .rest | .read _ _ | .fail _ _ => none

/-- The firing is what a rule of the table does on some match. -/
def RuleTable.Fires (t : RuleTable τ π) (firing : Firing τ π) : Prop :=
  ∃ s index matched payloads, t.fire? s index matched payloads = some firing

theorem RuleTable.Fires.exists_rule {t : RuleTable τ π} {firing : Firing τ π}
    (h : t.Fires firing) : ∃ s rule matched payloads, rule ∈ t.rules s ∧
      firing.effects = (rule.action.perform matched payloads).2.effects := by
  obtain ⟨s, index, matched, payloads, h⟩ := h
  obtain ⟨rule, hrule, rfl⟩ := Option.map_eq_some_iff.1 h
  exact ⟨s, rule, matched, payloads, List.mem_of_getElem? hrule, rfl⟩

namespace Engine

section Firings

variable {t : RuleTable τ π} {config : LexerConfig} {e : Engine π} {f : Feed Char}
  {firing : Firing τ π}

theorem fires_fire? {r : Reader Char} {m : Matching} {stop : Position}
    (h : e.fire? t r m stop = some firing) : t.Fires firing := by
  obtain ⟨index, -, h⟩ := Option.bind_eq_some_iff.1 h
  exact ⟨_, index, _, _, h⟩

theorem fires_fireAt {m : Matching} {stop : Position} {replays : Bool}
    (h : (e.fireAt t config f m stop replays).firing? = some firing) : t.Fires firing := by
  unfold fireAt at h
  cases hfire : e.fire? t f.reader m stop with
  | none =>
    rw [hfire] at h
    cases h
  | some firing' =>
    rw [hfire] at h
    obtain rfl := Option.some.inj h
    exact fires_fire? hfire

theorem fires_backtrack (h : (e.backtrack t config f).firing? = some firing) :
    t.Fires firing := by
  unfold backtrack at h
  cases hmark : e.bookmark with
  | none =>
    rw [hmark] at h
    cases h
  | some mark =>
    rw [hmark] at h
    exact fires_fireAt h

theorem fires_finish (h : (e.finish t config f).firing? = some firing) : t.Fires firing := by
  simp only [finish] at h
  split_ifs at h
  · cases hfire : e.fire? t f.reader (e.matching.derive .endMark) e.position with
    | none =>
      rw [hfire] at h
      cases h
    | some firing' =>
      rw [hfire] at h
      obtain rfl := Option.some.inj h
      exact fires_fire? hfire
  · exact fires_backtrack h

theorem firing?_absorb (c : Char) : (e.absorb config c f : Move τ π).firing? = none := by
  simp only [absorb]
  split
  · rfl
  · rfl

theorem fires_advance (h : (e.advance t config f).firing? = some firing) : t.Fires firing := by
  unfold advance at h
  split_ifs at h
  · exact fires_finish h
  · split at h
    · rw [firing?_absorb] at h
      cases h
    · cases h

theorem fires_move (h : (e.move t config f).firing? = some firing) : t.Fires firing := by
  unfold move at h
  split_ifs at h
  · exact fires_fireAt h
  · exact fires_advance h
  · exact fires_backtrack h
  · exact fires_advance h

end Firings

end Engine

/-! ### The place of an engine in a text -/

/-- No rule of the state has a beginning of the text longer than `n`, or the whole text and the
end of the input behind it. -/
structure RuleTable.NothingBeyond (t : RuleTable τ π) (s : StateId) (text : List Char) (n : Nat) :
    Prop where
  beginning : ∀ q, q <+: text → n < q.length → ∀ i, ¬t.Matches s (symbols q) i
  whole : ∀ i, ¬t.Matches s (symbols text ++ [.endMark]) i

theorem symbols_append (a b : List Char) : symbols (a ++ b) = symbols a ++ symbols b :=
  List.map_append

theorem RuleTable.nothingBeyond_of_extensions {t : RuleTable τ π} {s : StateId}
    {read ahead : List Char}
    (h : ∀ v i, v ≠ [] → ¬t.Matches s (symbols read ++ v) i) :
    t.NothingBeyond s (read ++ ahead) read.length where
  beginning := by
    intro q hq hlt i
    obtain ⟨v, rfl⟩ := List.prefix_of_prefix_length_le (List.prefix_append read ahead) hq
      (Nat.le_of_lt hlt)
    rw [symbols_append]
    apply h
    intro hv
    rw [List.length_append, List.map_eq_nil_iff.1 hv] at hlt
    exact Nat.lt_irrefl _ hlt
  whole := by
    intro i
    rw [symbols_append, List.append_assoc]
    apply h
    exact List.append_ne_nil_of_right_ne_nil _ (List.cons_ne_nil _ _)

namespace Engine

/-- The bookmark stands behind a part of the text read so far that some rule has. -/
def Marks (t : RuleTable τ π) (e : Engine π) (read : List Char) (m : Bookmark) : Prop :=
  ∃ p, p <+: read ∧
    m.matching = .after t e.matching.origin e.matching.start (symbols p) ∧
    m.position = e.matching.start.advanceBy p ∧
    ∃ i, t.Matches e.matching.origin (symbols p) i

def Remembers (e : Engine π) (p : List Char) : Prop :=
  ∃ m, e.bookmark = some m ∧ e.matching.start.offset + p.length ≤ m.position.offset

/-- The bookmark covers everything read so far, this very place included. -/
def Covers (t : RuleTable τ π) (e : Engine π) (read : List Char) : Prop :=
  ∀ q, q <+: read → (∃ i, t.Matches e.matching.origin (symbols q) i) → e.Remembers q

/-- For its match in progress the engine has read `read`, and `ahead` is what is there besides. -/
structure Tracks (t : RuleTable τ π) (f : Feed Char) (e : Engine π) (read ahead : List Char) :
    Prop where
  start_le : f.reader.start ≤ e.matching.start.offset
  text_eq : f.textFrom e.matching.start.offset = read ++ ahead
  matching_eq : e.matching = .after t e.matching.origin e.matching.start (symbols read)
  position_eq : e.position = e.matching.start.advanceBy read
  position_le : e.position.offset ≤ e.frontier
  frontier_le : e.frontier ≤ f.reader.reach
  marked : ∀ m, e.bookmark = some m → e.Marks t read m
  covered : ∀ q, q <+: read → q.length < read.length →
    (∃ i, t.Matches e.matching.origin (symbols q) i) → e.Remembers q

/-- Everything that a move can do, and why. -/
inductive Explains (t : RuleTable τ π) (config : LexerConfig) (f : Feed Char) (e : Engine π)
    (read ahead : List Char) : Move τ π → Prop
  /-- Everything was read, and more may come. -/
  | rest (hahead : ahead = []) (hopen : f.source.closed = false) :
      Explains t config f e read ahead .rest
  /-- The next character is read within the limit. -/
  | read {c : Char} {left : List Char} {e' : Engine π} {f' : Feed Char}
      (hahead : ahead = c :: left) (hreads : f.ReadsTo f')
      (htracks : Tracks t f' e' (read ++ [c]) left)
      (horigin : e'.matching.origin = e.matching.origin)
      (hstart : e'.matching.start = e.matching.start) (hpayloads : e'.payloads = e.payloads)
      (hlimit : ∀ limit, config.maxMatch = some limit → read.length + 1 ≤ limit) :
      Explains t config f e read ahead (.read e' f')
  /-- The longest match fires, and the engine goes on behind it. -/
  | fire {p q : List Char} {i : Nat} {firing : Firing τ π} {e' : Engine π} {replays : Bool}
      (htext : p ++ q = read ++ ahead) (hwins : t.Wins e.matching.origin (symbols p) i)
      (hbeyond : t.NothingBeyond e.matching.origin (p ++ q) p.length)
      (hfiring : t.fire? e.matching.origin i
        ⟨p, ⟨e.matching.start, e.matching.start.advanceBy p⟩⟩ e.payloads = some firing)
      (htracks : Tracks t f e' [] q) (horigin : e'.matching.origin = firing.next)
      (hstart : e'.matching.start = e.matching.start.advanceBy p)
      (hpayloads : e'.payloads = firing.payloads) :
      Explains t config f e read ahead (.fire firing e' replays)
  /-- Everything was read, and a rule has it with the end of the input behind it. -/
  | last {i : Nat} {firing : Firing τ π} {e' : Engine π}
      (hahead : ahead = []) (hclosed : f.source.closed = true)
      (hwins : t.Wins e.matching.origin (symbols read ++ [.endMark]) i)
      (hfiring : t.fire? e.matching.origin i
        ⟨read, ⟨e.matching.start, e.matching.start.advanceBy read⟩⟩ e.payloads = some firing) :
      Explains t config f e read ahead (.last firing e')
  /-- No rule has a beginning of the text. -/
  | deadEnd {f' : Feed Char} (hreads : f.ReadsTo f')
      (hbeyond : t.NothingBeyond e.matching.origin (read ++ ahead) 0) :
      Explains t config f e read ahead
        (.fail (.deadEnd e.matching.start (String.ofList ((read ++ ahead).take config.preview))) f')
  /-- The next character is read, but the match in progress is then too long. -/
  | tooLong {c : Char} {left : List Char} {limit : Nat} {f' : Feed Char}
      (hahead : ahead = c :: left) (hreads : f.ReadsTo f') (hmax : config.maxMatch = some limit)
      (hlimit : limit < read.length + 1) :
      Explains t config f e read ahead
        (.fail (.matchTooLong limit e.matching.start.line e.matching.start.column) f')

section Moves

variable {t : RuleTable τ π} {config : LexerConfig} {f : Feed Char} {e : Engine π}
  {read ahead : List Char}

theorem tracks_enter (t : RuleTable τ π) {offset : Nat} (ho : f.Reached offset) :
    Tracks t f (start t offset) [] (f.textFrom offset) where
  start_le := ho.1
  text_eq := rfl
  matching_eq := rfl
  position_eq := rfl
  position_le := Nat.le_refl offset
  frontier_le := ho.2
  marked := fun _ hm => nomatch hm
  covered := fun _ _ hlt => (Nat.not_lt_zero _ hlt).elim

namespace Tracks

theorem position_offset (h : Tracks t f e read ahead) :
    e.position.offset = e.matching.start.offset + read.length := by
  rw [h.position_eq, Position.offset_advanceBy]

theorem reached_start (h : Tracks t f e read ahead) : f.Reached e.matching.start.offset := by
  have hoffset := h.position_offset
  have hpos := h.position_le
  have hfrontier := h.frontier_le
  exact ⟨h.start_le, by omega⟩

theorem reached_position (h : Tracks t f e read ahead) : f.Reached e.position.offset := by
  have hoffset := h.position_offset
  have hstart := h.start_le
  exact ⟨by omega, Nat.le_trans h.position_le h.frontier_le⟩

theorem textFrom_position (h : Tracks t f e read ahead) :
    f.textFrom e.position.offset = ahead := by
  rw [h.position_offset, Feed.textFrom_add h.start_le, h.text_eq, List.drop_left]

theorem accepts_iff (h : Tracks t f e read ahead) :
    e.matching.accepts = true ↔ ∃ i, t.Matches e.matching.origin (symbols read) i := by
  rw [h.matching_eq, Matching.accepts_after, Matching.origin_after]

theorem covers_of_not_accepts (h : Tracks t f e read ahead)
    (hnot : e.matching.accepts = false) : e.Covers t read := by
  intro q hq hmatch
  rcases Nat.lt_or_ge q.length read.length with hlt | hge
  · exact h.covered q hq hlt hmatch
  · have hread : q = read := hq.eq_of_length_le hge
    rw [hread, ← h.accepts_iff, hnot] at hmatch
    cases hmatch

theorem mark (h : Tracks t f e read ahead) (haccepts : e.matching.accepts = true) :
    Tracks t f e.mark read ahead ∧ e.mark.Covers t read := by
  have hcovered : e.mark.Covers t read := by
    intro q hq _
    refine ⟨⟨e.matching, e.position⟩, rfl, ?_⟩
    have hle := hq.length_le
    have hoffset := h.position_offset
    simp only [Engine.mark]
    omega
  refine ⟨⟨h.start_le, h.text_eq, h.matching_eq, h.position_eq, h.position_le, h.frontier_le,
    ?_, fun q hq _ hmatch => hcovered q hq hmatch⟩, hcovered⟩
  intro m hm
  obtain rfl := Option.some.inj hm
  exact ⟨read, List.prefix_refl read, h.matching_eq, h.position_eq, h.accepts_iff.1 haccepts⟩

end Tracks

/-! ### The parts of a move -/

theorem explains_deadEnd (h : Tracks t f e read ahead)
    (hbeyond : t.NothingBeyond e.matching.origin (read ++ ahead) 0) :
    Explains t config f e read ahead (e.deadEnd config f) := by
  obtain ⟨f', htake, hreads⟩ := Feed.take_eq h.reached_start config.preview
  simp only [deadEnd, htake, h.text_eq]
  exact .deadEnd hreads hbeyond

theorem fire?_of_prefix (h : Tracks t f e read ahead) {p : List Char} (hp : p <+: read) {i : Nat}
    (hwins : t.Wins e.matching.origin (symbols p) i) :
    ∃ firing, e.fire? t f.reader (.after t e.matching.origin e.matching.start (symbols p))
        (e.matching.start.advanceBy p) = some firing ∧
      t.fire? e.matching.origin i ⟨p, ⟨e.matching.start, e.matching.start.advanceBy p⟩⟩
        e.payloads = some firing := by
  have hbetween : f.reader.between e.matching.start.offset
      (e.matching.start.advanceBy p).offset = p := by
    have hle := hp.length_le
    have hreached := h.reached_position.2
    have hoffset := h.position_offset
    rw [Feed.between_eq h.start_le (by rw [Position.offset_advanceBy]; omega), h.text_eq,
      Position.offset_advanceBy, Nat.add_sub_cancel_left]
    exact (List.prefix_iff_eq_take.1 (hp.trans (List.prefix_append read ahead))).symm
  obtain ⟨firing, hfiring⟩ := RuleTable.fire?_isSome hwins.1
    ⟨p, ⟨e.matching.start, e.matching.start.advanceBy p⟩⟩ e.payloads
  refine ⟨firing, ?_, hfiring⟩
  rw [fire?, Matching.winner?_after_eq_some_iff.2 hwins, Option.bind_some, Matching.origin_after,
    Matching.start_after, hbetween]
  exact hfiring

theorem explains_fireAt (config : LexerConfig) (h : Tracks t f e read ahead) {p : List Char}
    (hp : p <+: read) (hmatch : ∃ i, t.Matches e.matching.origin (symbols p) i)
    (hbeyond : t.NothingBeyond e.matching.origin (read ++ ahead) p.length) (replays : Bool) :
    Explains t config f e read ahead
      (e.fireAt t config f (.after t e.matching.origin e.matching.start (symbols p))
        (e.matching.start.advanceBy p) replays) := by
  obtain ⟨j, hj⟩ := hmatch
  obtain ⟨i, hwins⟩ := Matching.exists_wins hj
  obtain ⟨firing, hfire, hfiring⟩ := fire?_of_prefix h hp hwins
  obtain ⟨q, hq⟩ := hp.trans (List.prefix_append read ahead)
  have hle := hp.length_le
  have hoffset := h.position_offset
  have hposition := h.position_le
  have hstart := h.start_le
  simp only [fireAt, hfire]
  refine .fire hq hwins (hq ▸ hbeyond) hfiring ?_ rfl rfl rfl
  refine
    { start_le := ?_
      text_eq := ?_
      matching_eq := rfl
      position_eq := rfl
      position_le := ?_
      frontier_le := h.frontier_le
      marked := fun m hm => nomatch hm
      covered := fun r _ hlt => (Nat.not_lt_zero _ hlt).elim }
  · simp only [Matching.enter, Position.offset_advanceBy]
    omega
  · simp only [Matching.enter, Position.offset_advanceBy, List.nil_append]
    rw [Feed.textFrom_add h.start_le, h.text_eq, ← hq, List.drop_left]
  · simp only [Position.offset_advanceBy]
    omega

/-- Going back is right when the bookmark covers what was read and nothing goes on from there. -/
theorem explains_backtrack (h : Tracks t f e read ahead)
    (hcovered : e.Covers t read)
    (hbeyond : t.NothingBeyond e.matching.origin (read ++ ahead) read.length) :
    Explains t config f e read ahead (e.backtrack t config f) := by
  -- what is longer than the bookmark is either covered by it or longer than what was read
  have hlongest : ∀ n, (∀ q, q <+: read → n < q.length → ∀ i,
        ¬t.Matches e.matching.origin (symbols q) i) →
      t.NothingBeyond e.matching.origin (read ++ ahead) n := by
    intro n hn
    refine ⟨fun q hq hlt i hi => ?_, hbeyond.whole⟩
    rcases Nat.lt_or_ge read.length q.length with hlong | hshort
    · exact hbeyond.beginning q hq hlong i hi
    · have hq' : q <+: read :=
        List.prefix_of_prefix_length_le hq (List.prefix_append read ahead) hshort
      exact hn q hq' hlt i hi
  unfold backtrack
  cases hmark : e.bookmark with
  | none =>
    refine explains_deadEnd h (hlongest 0 fun q hq _ i hi => ?_)
    obtain ⟨m, hm, -⟩ := hcovered q hq ⟨i, hi⟩
    rw [hmark] at hm
    cases hm
  | some m =>
    obtain ⟨p, hp, hmatching, hposition, hmatch⟩ := h.marked m hmark
    simp only [hmatching, hposition]
    refine explains_fireAt config h hp hmatch (hlongest p.length fun q hq hlt i hi => ?_) _
    obtain ⟨m', hm', hle⟩ := hcovered q hq ⟨i, hi⟩
    obtain rfl := Option.some.inj (hmark.symm.trans hm')
    rw [hposition, Position.offset_advanceBy] at hle
    omega

/-- At the end of the input a rule that reads the end mark goes before the bookmark. -/
theorem explains_finish (h : Tracks t f e read ahead) (hahead : ahead = [])
    (hclosed : f.source.closed = true)
    (hcovered : e.Covers t read) :
    Explains t config f e read ahead (e.finish t config f) := by
  have hfinal : e.matching.derive .endMark =
      .after t e.matching.origin e.matching.start (symbols read ++ [.endMark]) := by
    rw [Matching.after_snoc, ← h.matching_eq]
  simp only [finish, hfinal]
  split_ifs with haccepts
  · obtain ⟨j, hj⟩ := Matching.accepts_after.1 haccepts
    obtain ⟨i, hwins⟩ := Matching.exists_wins hj
    have hbetween : f.reader.between e.matching.start.offset e.position.offset = read := by
      rw [Feed.between_eq h.start_le h.reached_position.2, h.text_eq, h.position_offset,
        Nat.add_sub_cancel_left, List.take_left]
    obtain ⟨firing, hfiring⟩ := RuleTable.fire?_isSome hwins.1
      ⟨read, ⟨e.matching.start, e.matching.start.advanceBy read⟩⟩ e.payloads
    have hfire : e.fire? t f.reader
        (.after t e.matching.origin e.matching.start (symbols read ++ [.endMark])) e.position =
          some firing := by
      rw [fire?, Matching.winner?_after_eq_some_iff.2 hwins, Option.bind_some,
        Matching.origin_after, Matching.start_after, hbetween, h.position_eq]
      exact hfiring
    simp only [hfire]
    exact .last hahead hclosed hwins hfiring
  · refine explains_backtrack h hcovered ?_
    rw [Matching.accepts_after] at haccepts
    rw [hahead, List.append_nil]
    refine ⟨fun q hq hlt => ?_, fun i hi => haccepts ⟨i, hi⟩⟩
    exact (Nat.not_lt.2 hq.length_le hlt).elim

theorem explains_absorb (h : Tracks t f e read ahead) {c : Char} {left : List Char}
    (hahead : ahead = c :: left) {f' : Feed Char} (hreads : f.ReadsTo f')
    (hreach : e.position.offset + 1 ≤ f'.reader.reach)
    (hcovered : e.Covers t read) :
    Explains t config f e read ahead (e.absorb config c f') := by
  have hoffset := h.position_offset
  have hgrown : (e.position.advance c).offset - e.matching.start.offset = read.length + 1 := by
    rw [Position.offset_advance]
    omega
  simp only [absorb]
  cases hexceeds : exceeds config
      { e with
        matching := e.matching.derive (.char c)
        position := e.position.advance c
        frontier := max e.frontier (e.position.advance c).offset } with
  | some limit =>
    simp only [exceeds, Matching.derive, hgrown, Option.filter_eq_some_iff,
      decide_eq_true_iff] at hexceeds
    exact .tooLong hahead hreads hexceeds.1 hexceeds.2
  | none =>
    simp only [exceeds, Matching.derive, hgrown, Option.filter_eq_none_iff,
      decide_eq_true_iff, Nat.not_lt] at hexceeds
    refine .read hahead hreads ?_ rfl rfl rfl fun limit hlimit => hexceeds limit hlimit
    have hsymbols : symbols (read ++ [c]) = symbols read ++ [.char c] := symbols_append read [c]
    refine
      { start_le := hreads.start_eq ▸ h.start_le
        text_eq := ?_
        matching_eq := ?_
        position_eq := ?_
        position_le := Nat.le_max_right _ _
        frontier_le := ?_
        marked := ?_
        covered := ?_ }
    · rw [hreads.textFrom_eq, List.append_assoc, List.singleton_append, ← hahead]
      exact h.text_eq
    · rw [hsymbols, Matching.after_snoc]
      exact congrArg (·.derive (.char c)) h.matching_eq
    · simp only [h.position_eq, Matching.derive, Position.advanceBy_append,
        Position.advanceBy_cons, Position.advanceBy_nil]
    · have hfrontier := Nat.le_trans h.frontier_le hreads.reach_le
      show max e.frontier (e.position.advance c).offset ≤ f'.reader.reach
      rw [Position.offset_advance]
      exact Nat.max_le.2 ⟨hfrontier, hreach⟩
    · intro m hm
      obtain ⟨p, hp, hrest⟩ := h.marked m hm
      exact ⟨p, hp.trans (List.prefix_append read [c]), hrest⟩
    · intro q hq hlt hmatch
      rw [List.length_append, List.length_singleton] at hlt
      have hq' : q <+: read := List.prefix_of_prefix_length_le hq
        (List.prefix_append read [c]) (Nat.le_of_lt_succ hlt)
      exact hcovered q hq' hmatch

theorem explains_advance (config : LexerConfig) (h : Tracks t f e read ahead)
    (hcovered : e.Covers t read) :
    Explains t config f e read ahead (e.advance t config f) := by
  have htext := h.textFrom_position
  have hreached := h.reached_position
  unfold advance
  rw [Feed.ended_eq hreached, htext]
  cases hahead : ahead with
  | nil =>
    subst hahead
    rw [List.isEmpty_nil, Bool.true_and]
    split_ifs with hclosed
    · exact explains_finish h rfl hclosed hcovered
    · rw [Feed.head?_of_textFrom_nil hreached htext]
      exact .rest rfl (Bool.not_eq_true _ ▸ hclosed)
  | cons c left =>
    subst hahead
    obtain ⟨f', hhead, hreads, hreach⟩ := Feed.head?_of_textFrom_cons hreached htext
    rw [List.isEmpty_cons, Bool.false_and, hhead]
    exact explains_absorb h rfl hreads hreach hcovered

end Moves

/-- Every move is explained by the text and the patterns of the table. -/
theorem explains_move {t : RuleTable τ π} (config : LexerConfig) {f : Feed Char} {e : Engine π}
    {read ahead : List Char} (h : Tracks t f e read ahead) :
    Explains t config f e read ahead (e.move t config f) := by
  unfold move
  split_ifs with hsettled haccepts hrejects
  · rw [h.matching_eq] at hsettled
    obtain ⟨hmatch, hnone⟩ := Matching.matches_of_settled hsettled
    have hfire := explains_fireAt config h (List.prefix_refl read) hmatch
      (RuleTable.nothingBeyond_of_extensions fun v i hv hi => hv (hnone v i hi)) false
    rwa [← h.matching_eq, ← h.position_eq] at hfire
  · -- the bookmark is moved first, and no move looks at the old one
    obtain ⟨hmark, hcovered⟩ := h.mark haccepts
    have hmove := explains_advance config hmark hcovered
    generalize e.mark.advance t config f = move at hmove
    cases hmove with
    | rest hahead hopen => exact .rest hahead hopen
    | read hahead hreads htracks horigin hstart hpayloads hlimit =>
      exact .read hahead hreads htracks horigin hstart hpayloads hlimit
    | fire htext hwins hbeyond hfiring htracks horigin hstart hpayloads =>
      exact .fire htext hwins hbeyond hfiring htracks horigin hstart hpayloads
    | last hahead hclosed hwins hfiring => exact .last hahead hclosed hwins hfiring
    | deadEnd hreads hbeyond => exact .deadEnd hreads hbeyond
    | tooLong hahead hreads hmax hlimit => exact .tooLong hahead hreads hmax hlimit
  · refine explains_backtrack h (h.covers_of_not_accepts ?_) ?_
    · exact Bool.not_eq_true _ ▸ haccepts
    · rw [h.matching_eq, Matching.rejects_after] at hrejects
      exact RuleTable.nothingBeyond_of_extensions fun v i _ => hrejects v i
  · refine explains_advance config h (h.covers_of_not_accepts ?_)
    exact Bool.not_eq_true _ ▸ haccepts

end Engine

end DerivativeLexer
