import DerivativeLexer.Proofs.Lexer.Settling
import Mathlib.Data.List.Chain

/-! # Matches tile the text

An engine starts at some place of a text and fires one match after the other, while more text may
come between any two of its moves. However far it reads ahead and however often it goes back, its
matches lie one behind the other from that place on: no character between them is left out, and
none is matched twice. -/

namespace DerivativeLexer

variable {τ π : Type}

/-! ### Moves on text that grows -/

namespace Move

/-- The engine `e` after its move, if it goes on. -/
def goesOn? (e : Engine π) : Move τ π → Option (Engine π)
  | .rest => some e
  | .read next _ | .fire _ next _ => some next
  | .last _ _ | .fail _ _ => none

def feedAfter (f : Feed Char) : Move τ π → Feed Char
  | .read _ feed | .fail _ feed => feed
  | .rest | .fire _ _ _ | .last _ _ => f

def firings (moves : List (Move τ π)) : List (Firing τ π) := moves.filterMap firing?

def matched (moves : List (Move τ π)) : List Matched := (firings moves).map (·.matched)

end Move

/-- The moves that an engine has made since it started at `k`, and what it is then. The feed grows
between the moves. Somebody may give the engine up, and then there is none any more. -/
inductive Course (l : Lexer τ π) (k : Nat) :
    List (Move τ π) → Option (Engine π) → Feed Char → Prop
  | start {f : Feed Char} (hreached : f.Reached k) : Course l k [] (some (.start l.rules k)) f
  | grow {moves : List (Move τ π)} {now : Option (Engine π)} {f : Feed Char}
      (h : Course l k moves now f) (items : List Char) (closing : Bool) :
      Course l k moves now (f.grow items closing)
  | move {moves : List (Move τ π)} {e : Engine π} {f : Feed Char}
      (h : Course l k moves (some e) f) :
      Course l k (moves ++ [e.move l.rules l.config f])
        ((e.move l.rules l.config f).goesOn? e) ((e.move l.rules l.config f).feedAfter f)
  | giveUp {moves : List (Move τ π)} {e : Engine π} {f : Feed Char}
      (h : Course l k moves (some e) f) : Course l k moves none f

/-! ### Matches one behind the other -/

/-- The first match begins at a place, and every other one where the one before it ended. -/
inductive Abut : Position → List Matched → Prop
  | nil (place : Position) : Abut place []
  | cons {place : Position} {text : List Char} {later : List Matched}
      (h : Abut (place.advanceBy text) later) :
      Abut place (⟨text, ⟨place, place.advanceBy text⟩⟩ :: later)

namespace Abut

variable {place : Position} {ms : List Matched}

theorem snoc (h : Abut place ms) (text : List Char) {stop : Position}
    (hstop : stop = place.advanceBy (ms.flatMap (·.text))) :
    Abut place (ms ++ [⟨text, ⟨stop, stop.advanceBy text⟩⟩]) := by
  induction h with
  | nil place =>
    subst hstop
    exact .cons (.nil _)
  | cons h ih =>
    rw [List.flatMap_cons, Position.advanceBy_append] at hstop
    exact .cons (ih hstop)

theorem span_start (h : Abut place ms) : ∀ m ∈ ms.head?, m.span.start = place := by
  cases h with
  | nil => simp
  | cons h => simp

theorem isChain (h : Abut place ms) :
    ms.IsChain fun m later => later.span.start = m.span.stop := by
  induction h with
  | nil => exact .nil
  | cons h ih => exact List.isChain_cons.2 ⟨h.span_start, ih⟩

theorem span_stop (h : Abut place ms) :
    ∀ m ∈ ms, m.span.stop = m.span.start.advanceBy m.text := by
  induction h with
  | nil => simp
  | cons h ih =>
    intro m hm
    rcases List.mem_cons.1 hm with rfl | hm
    · rfl
    · exact ih m hm

theorem last_stop (h : Abut place ms) :
    ∀ m ∈ ms.getLast?, m.span.stop = place.advanceBy (ms.flatMap (·.text)) := by
  induction h with
  | nil => simp
  | @cons place text later h ih =>
    intro m hm
    rw [List.flatMap_cons, Position.advanceBy_append]
    cases later with
    | nil =>
      rw [← Option.some.inj hm]
      rfl
    | cons next later => exact ih m (by rwa [List.getLast?_cons_cons] at hm)

/-- A match is the part of the text that its span cuts out. -/
theorem text_eq (h : Abut place ms) (rest : List Char) : ∀ m ∈ ms,
    place.offset ≤ m.span.start.offset ∧
      m.text = ((ms.flatMap (·.text) ++ rest).drop (m.span.start.offset - place.offset)).take
        m.text.length := by
  induction h with
  | nil => simp
  | @cons place text later h ih =>
    intro m hm
    rcases List.mem_cons.1 hm with rfl | hm
    · simp
    · obtain ⟨hle, htext⟩ := ih m hm
      rw [Position.offset_advanceBy] at hle htext
      refine ⟨by omega, ?_⟩
      have hskip : m.span.start.offset - place.offset =
          text.length + (m.span.start.offset - (place.offset + text.length)) := by omega
      rw [hskip, List.flatMap_cons, List.append_assoc, ← List.drop_drop, List.drop_left]
      exact htext

end Abut

/-- The matches lie one behind the other in the text from the offset `k` on. Only the last one may
be empty, at the end of a text to which nothing can be added. -/
structure Tiles (k : Nat) (text : List Char) (closed : Bool) (ms : List Matched) : Prop where
  first : ∀ m ∈ ms.head?, m.span.start = .startingAt k
  next : ms.IsChain fun m later => later.span.start = m.span.stop
  stop_eq : ∀ m ∈ ms, m.span.stop = m.span.start.advanceBy m.text
  text_eq : ∀ m ∈ ms, k ≤ m.span.start.offset ∧ m.text.length = m.span.length ∧
    m.text = (text.drop (m.span.start.offset - k)).take m.span.length
  nonempty : ∀ m ∈ ms.dropLast, m.text ≠ []
  empty_last : ∀ m ∈ ms.getLast?, m.text = [] →
    closed = true ∧ m.span.stop.offset = k + text.length

/-- The matches cut off a beginning of the text, or all of it if the last one is empty. -/
structure CutsOff (k : Nat) (text : List Char) (closed : Bool) (ms : List Matched) : Prop where
  abut : Abut (.startingAt k) ms
  beginning : ms.flatMap (·.text) <+: text
  nonempty : ∀ m ∈ ms.dropLast, m.text ≠ []
  empty_last : ∀ m ∈ ms.getLast?, m.text = [] → closed = true ∧ ms.flatMap (·.text) = text

namespace CutsOff

variable {k : Nat} {text : List Char} {closed : Bool} {ms : List Matched}

theorem tiles (h : CutsOff k text closed ms) : Tiles k text closed ms where
  first := h.abut.span_start
  next := h.abut.isChain
  stop_eq := h.abut.span_stop
  text_eq := by
    intro m hm
    obtain ⟨rest, hrest⟩ := h.beginning
    obtain ⟨hle, htext⟩ := h.abut.text_eq rest m hm
    have hlength : m.text.length = m.span.length := by
      rw [Span.length, h.abut.span_stop m hm, Position.offset_advanceBy]
      omega
    rw [hrest, hlength] at htext
    exact ⟨hle, hlength, htext⟩
  nonempty := h.nonempty
  empty_last := by
    intro m hm hempty
    obtain ⟨hclosed, htext⟩ := h.empty_last m hm hempty
    refine ⟨hclosed, ?_⟩
    rw [h.abut.last_stop m hm, Position.offset_advanceBy, htext]
    rfl

theorem nil (k : Nat) (text : List Char) (closed : Bool) : CutsOff k text closed [] where
  abut := .nil _
  beginning := List.nil_prefix
  nonempty := by simp
  empty_last := by simp

/-- More text comes, unless the text is closed. -/
theorem mono (h : CutsOff k text closed ms) {text' : List Char} {closed' : Bool}
    (hbegins : text <+: text') (hclosed : closed = true → closed' = true ∧ text' = text) :
    CutsOff k text' closed' ms where
  abut := h.abut
  beginning := h.beginning.trans hbegins
  nonempty := h.nonempty
  empty_last := by
    intro m hm hempty
    obtain ⟨hend, htext⟩ := h.empty_last m hm hempty
    obtain ⟨hend', hsame⟩ := hclosed hend
    exact ⟨hend', htext.trans hsame.symm⟩

/-- One match more. It is empty only at the end of a closed text. -/
theorem snoc (h : CutsOff k text closed ms) (hnonempty : ∀ m ∈ ms, m.text ≠ []) {p q : List Char}
    {start : Position} (hstart : start = (Position.startingAt k).advanceBy (ms.flatMap (·.text)))
    (htext : ms.flatMap (·.text) ++ (p ++ q) = text)
    (hempty : p = [] → closed = true ∧ q = []) :
    CutsOff k text closed (ms ++ [⟨p, ⟨start, start.advanceBy p⟩⟩]) where
  abut := h.abut.snoc p hstart
  beginning := ⟨q, by simpa using htext⟩
  nonempty := by
    rw [List.dropLast_concat]
    exact hnonempty
  empty_last := by
    intro m hm hp
    rw [List.getLast?_concat] at hm
    obtain rfl := Option.some.inj hm
    obtain ⟨hclosed, hq⟩ := hempty hp
    refine ⟨hclosed, ?_⟩
    rw [hq] at htext
    simpa using htext

end CutsOff

/-! ### Courses tile -/

/-- The engine stands behind the matches `ms`: its match in progress begins where they end. -/
structure Continues (l : Lexer τ π) (k : Nat) (f : Feed Char) (ms : List Matched)
    (e : Engine π) : Prop where
  start_eq : e.matching.start = (Position.startingAt k).advanceBy (ms.flatMap (·.text))
  nonempty : ∀ m ∈ ms, m.text ≠ []
  tracks : ∃ read ahead, Engine.Tracks l.rules f e read ahead

section

variable {l : Lexer τ π} {k : Nat} {moves : List (Move τ π)}
  {now : Option (Engine π)} {f g : Feed Char} {e : Engine π} {ms : List Matched}

theorem Feed.Reached.reads (h : f.Reached k) (hreads : f.ReadsTo g) : g.Reached k := by
  refine ⟨?_, h.2.trans hreads.reach_le⟩
  rw [hreads.start_eq]
  exact h.1

theorem RuleTable.matched_of_fire? {t : RuleTable τ π} {s : StateId} {i : Nat} {m : Matched}
    {payloads : Payloads π} {firing : Firing τ π} (h : t.fire? s i m payloads = some firing) :
    firing.matched = m ∧
      t.fire? firing.state firing.rule firing.matched payloads = some firing := by
  obtain ⟨rule, -, rfl⟩ := Option.map_eq_some_iff.1 h
  exact ⟨rfl, h⟩

theorem Move.firings_snoc (moves : List (Move τ π)) (move : Move τ π) :
    firings (moves ++ [move]) = firings moves ++ move.firing?.toList := by
  cases hfiring : move.firing? with
  | none => simp [firings, hfiring]
  | some firing => simp [firings, hfiring]

theorem Move.matched_snoc (moves : List (Move τ π)) (move : Move τ π) :
    matched (moves ++ [move]) = matched moves ++ (move.firing?.map (·.matched)).toList := by
  rw [matched, matched, firings_snoc, List.map_append]
  cases move.firing? with
  | none => rfl
  | some firing => rfl

/-- A move at most reads. -/
theorem Engine.Tracks.reads {t : RuleTable τ π} {read ahead : List Char} (config : LexerConfig)
    (h : Tracks t f e read ahead) : f.ReadsTo ((e.move t config f).feedAfter f) := by
  have hexplains := explains_move config h
  generalize e.move t config f = move at hexplains
  cases hexplains with
  | rest => exact .refl f
  | read _ hreads => exact hreads
  | fire => exact .refl f
  | last => exact .refl f
  | deadEnd hreads => exact hreads
  | tooLong _ hreads => exact hreads

/-- What lies behind the matches is what the engine has read for the next one, and what is ahead. -/
theorem Continues.text_eq (h : Continues l k f ms e) (hreached : f.Reached k)
    (hbeginning : ms.flatMap (·.text) <+: f.textFrom k) {read ahead : List Char}
    (htracks : Engine.Tracks l.rules f e read ahead) :
    ms.flatMap (·.text) ++ (read ++ ahead) = f.textFrom k := by
  have hoffset : e.matching.start.offset = k + (ms.flatMap (·.text)).length := by
    rw [h.start_eq, Position.offset_advanceBy]
    rfl
  rw [← htracks.text_eq, hoffset, Feed.textFrom_add hreached.1]
  exact (List.prefix_iff_eq_append.1 hbeginning)

/-- One move of the engine. -/
theorem Continues.step (h : Continues l k f ms e) {move : Move τ π} (hreached : f.Reached k)
    (hcuts : CutsOff k (f.textFrom k) f.source.closed ms)
    (hmove : e.move l.rules l.config f = move) :
    (move.feedAfter f).Reached k ∧
      CutsOff k ((move.feedAfter f).textFrom k) (move.feedAfter f).source.closed
        (ms ++ (move.firing?.map (·.matched)).toList) ∧
      ∀ e', move.goesOn? e = some e' →
        Continues l k (move.feedAfter f) (ms ++ (move.firing?.map (·.matched)).toList) e' := by
  obtain ⟨read, ahead, htracks⟩ := h.tracks
  have htext := h.text_eq hreached hcuts.beginning htracks
  have hreads := htracks.reads l.config
  have hexplains := Engine.explains_move l.config htracks
  rw [hmove] at hexplains hreads
  refine ⟨hreached.reads hreads, ?_⟩
  rw [hreads.textFrom_eq, hreads.closed_eq]
  have hstops : ∀ {P : Engine π → Prop} e', (none : Option (Engine π)) = some e' → P e' := by
    intro P e' he
    cases he
  cases hexplains with
  | rest hahead hopen =>
    simp only [Move.firing?, Option.map_none, Option.toList_none, List.append_nil]
    refine ⟨hcuts, fun e' he => ?_⟩
    rw [← Option.some.inj he]
    exact h
  | read hahead _ htracks' horigin hstart hpayloads =>
    simp only [Move.firing?, Option.map_none, Option.toList_none, List.append_nil]
    refine ⟨hcuts, fun e' he => ?_⟩
    rw [← Option.some.inj he]
    exact ⟨hstart.trans h.start_eq, h.nonempty, _, _, htracks'⟩
  | @fire p q i firing e' replays hpq hwins hbeyond hfiring htracks' horigin hstart hpayloads =>
    have hne : p ≠ [] := by
      rintro rfl
      exact RuleTable.not_matches_nil l.productive _ _ hwins.1
    simp only [Move.firing?, Option.map_some, Option.toList_some,
      (RuleTable.matched_of_fire? hfiring).1]
    refine ⟨hcuts.snoc h.nonempty h.start_eq (hpq ▸ htext) fun hp => (hne hp).elim,
      fun e'' he => ?_⟩
    rw [← Option.some.inj he]
    refine ⟨?_, fun m hm => ?_, _, _, htracks'⟩
    · simp [hstart, h.start_eq, Position.advanceBy_append]
    · rcases List.mem_append.1 hm with hm | hm
      · exact h.nonempty m hm
      · rw [List.mem_singleton.1 hm]
        exact hne
  | @last i firing e' hahead hclosed hwins hfiring =>
    subst hahead
    simp only [Move.firing?, Option.map_some, Option.toList_some,
      (RuleTable.matched_of_fire? hfiring).1]
    exact ⟨hcuts.snoc h.nonempty h.start_eq htext fun _ => ⟨hclosed, rfl⟩, hstops⟩
  | deadEnd =>
    simp only [Move.firing?, Option.map_none, Option.toList_none, List.append_nil]
    exact ⟨hcuts, hstops⟩
  | tooLong =>
    simp only [Move.firing?, Option.map_none, Option.toList_none, List.append_nil]
    exact ⟨hcuts, hstops⟩

namespace Course

/-- Whatever the engine has done, its matches cut off a beginning of the text, and it goes on
behind them. -/
theorem cutsOff (h : Course l k moves now f) :
    f.Reached k ∧ CutsOff k (f.textFrom k) f.source.closed (Move.matched moves) ∧
      ∀ e, now = some e → Continues l k f (Move.matched moves) e := by
  induction h with
  | start hreached =>
    refine ⟨hreached, .nil k _ _, fun e he => ?_⟩
    rw [← Option.some.inj he]
    exact ⟨rfl, by simp [Move.matched, Move.firings], _, _, Engine.tracks_enter l.rules hreached⟩
  | @grow moves now f h items closing ih =>
    obtain ⟨hreached, hcuts, hcontinues⟩ := ih
    refine ⟨hreached, hcuts.mono ?_ fun hclosed => ?_, fun e he => ?_⟩
    · rw [Feed.textFrom_grow hreached]
      exact List.prefix_append _ _
    · rw [Feed.grow_of_closed hclosed]
      exact ⟨hclosed, rfl⟩
    · obtain ⟨hstart, hnonempty, read, ahead, htracks⟩ := hcontinues e he
      exact ⟨hstart, hnonempty, _, _, htracks.grow items closing⟩
  | move h ih =>
    obtain ⟨hreached, hcuts, hcontinues⟩ := ih
    rw [Move.matched_snoc]
    exact (hcontinues _ rfl).step hreached hcuts rfl
  | giveUp h ih => exact ⟨ih.1, ih.2.1, fun e he => nomatch he⟩

theorem tiles (h : Course l k moves now f) :
    Tiles k (f.textFrom k) f.source.closed (Move.matched moves) := h.cutsOff.2.1.tiles

/-- When the rule that reads the end of the input has fired, the matches are all of the text. -/
theorem covers (h : Course l k moves now f) {firing : Firing τ π} {e : Engine π}
    (hlast : moves.getLast? = some (.last firing e)) :
    f.source.closed = true ∧ (Move.matched moves).flatMap (·.text) = f.textFrom k := by
  induction h with
  | start => cases hlast
  | grow h items closing ih =>
    obtain ⟨hclosed, htext⟩ := ih hlast
    rw [Feed.grow_of_closed hclosed]
    exact ⟨hclosed, htext⟩
  | @move moves e' f h ih =>
    obtain ⟨hreached, hcuts, hcontinues⟩ := h.cutsOff
    have hnow := hcontinues _ rfl
    obtain ⟨read, ahead, htracks⟩ := hnow.tracks
    have htext := hnow.text_eq hreached hcuts.beginning htracks
    have hexplains := Engine.explains_move l.config htracks
    rw [List.getLast?_concat] at hlast
    rw [Move.matched_snoc]
    rw [Option.some.inj hlast] at hexplains ⊢
    cases hexplains with
    | last hahead hclosed hwins hfiring =>
      subst hahead
      have hmatched := (RuleTable.matched_of_fire? hfiring).1
      refine ⟨hclosed, ?_⟩
      simpa [Move.firing?, Move.feedAfter, hmatched] using htext
  | giveUp h ih => exact ih hlast

/-- An action is handed the match that its firing records. -/
theorem performed (h : Course l k moves now f) : ∀ firing ∈ Move.firings moves,
    ∃ payloads, l.rules.fire? firing.state firing.rule firing.matched payloads = some firing := by
  induction h with
  | start => simp [Move.firings]
  | grow h items closing ih => exact ih
  | @move moves e f h ih =>
    intro firing hfiring
    rw [Move.firings, List.filterMap_append] at hfiring
    rcases List.mem_append.1 hfiring with hfiring | hfiring
    · exact ih firing hfiring
    · obtain ⟨move, hmove, hfires⟩ := List.mem_filterMap.1 hfiring
      rw [List.mem_singleton.1 hmove] at hfires
      obtain ⟨s, index, matched, payloads, hfire⟩ := Engine.fires_move hfires
      exact ⟨payloads, (RuleTable.matched_of_fire? hfire).2⟩
  | giveUp h ih => exact ih

end Course

end

end DerivativeLexer
