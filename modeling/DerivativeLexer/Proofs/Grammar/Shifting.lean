import DerivativeLexer.Proofs.Grammar.Lossless

/-! # The same text further below

A text that begins a line is lexed in the same way wherever the line stands: the tokens and the
error have the offsets and the lines that the text before it adds, and the same columns. The
actions of the grammars look at the place of a match only to say where a token stands, and at a
payload only inside of string literals and of block comments, where both runs have written it. -/

namespace DerivativeLexer

open DerivativeLexer.Language (symbols)

variable {τ υ π : Type}

/-! ### Places below a text -/

/-- The place that a place has when the text and a line feed are put before it. -/
def Position.below (p : Position) (text : List Char) : Position :=
  ⟨p.offset + (text.length + 1), p.line + (text.count '\n' + 1), p.column⟩

def Span.below (s : Span) (text : List Char) : Span := ⟨s.start.below text, s.stop.below text⟩

def Token.below (t : Token) (text : List Char) : Token := { t with span := t.span.below text }

def LexError.below (text : List Char) : LexError → LexError
  | .deadEnd place remaining => .deadEnd (place.below text) remaining
  | e => e

def Matched.below (m : Matched) (text : List Char) : Matched := ⟨m.text, m.span.below text⟩

def StringBody.below (body : StringBody) (text : List Char) : StringBody :=
  { body with start := body.start.below text }

namespace Position

theorem advance_below (p : Position) (text : List Char) (c : Char) :
    (p.below text).advance c = (p.advance c).below text := by
  unfold advance below
  split
  · simp only [mk.injEq, and_true]
    omega
  · simp only [mk.injEq, and_true]
    omega

theorem advanceBy_below (p : Position) (text read : List Char) :
    (p.below text).advanceBy read = (p.advanceBy read).below text := by
  induction read generalizing p with
  | nil => rfl
  | cons c rest ih => rw [advanceBy_cons, advance_below, ih, advanceBy_cons]

/-- The first place below a text is the one behind it and the line feed. -/
theorem below_start (text : List Char) :
    (start.advanceBy text).advance '\n' = start.below text := by
  rw [advanceBy_start, advance, if_pos rfl, below, start, Nat.zero_add]
  simp only [mk.injEq, and_true, true_and]
  omega

end Position

/-! ### Effects and payloads below a text -/

namespace Effect

def map (f : τ → υ) : Effect τ → Effect υ
  | .emit item => .emit (f item)
  | .close => .close
  | .request r => .request r

theorem emitted_map (f : τ → υ) (effects : List (Effect τ)) :
    emitted (effects.map (map f)) = (emitted effects).map f := by
  induction effects with
  | nil => rfl
  | cons effect later ih =>
    cases effect with
    | emit item => exact congrArg (f item :: ·) ih
    | close => rfl
    | request r => exact ih

/-- The effect when the text and a line feed stand before everything. -/
def below (text : List Char) : Effect Token → Effect Token := map (·.below text)

end Effect

namespace Layers

/-- The payloads agree on what a state reads of them, with the second ones below a text. -/
structure Alike (g : Layers π) (text : List Char) (s : StateId) (payloads below : Payloads π) :
    Prop where
  strings : s = g.strings.state → g.strings.read below = (g.strings.read payloads).below text
  depth : s ≠ g.main → s ≠ g.strings.state → g.depth below = g.depth payloads

/-- What a rule has done below a text is what it has done without it. -/
structure SameBelow (g : Layers π) (text : List Char) (done below : StateId × Outbox Token π) :
    Prop where
  next : below.1 = done.1
  effects : below.2.effects = done.2.effects.map (.below text)
  alike : g.Alike text done.1 done.2.payloads below.2.payloads

/-- Below a text the rule does the same. -/
def Shifts (g : Layers π) (s : StateId) (rule : Rule Token π) : Prop :=
  ∀ text m payloads below, g.Alike text s payloads below →
    g.SameBelow text (rule.action.perform m payloads) (rule.action.perform (m.below text) below)

variable {g : Layers π} {text : List Char} {payloads below : Payloads π}
  {pattern : Language}

/-- Between tokens no payload is looked at. -/
theorem alike_main : g.Alike text g.main payloads below :=
  ⟨fun h => (g.apart h.symm).elim, fun h => (h rfl).elim⟩

theorem alike_strings (h : g.strings.read below = (g.strings.read payloads).below text) :
    g.Alike text g.strings.state payloads below :=
  ⟨fun _ => h, fun _ hne => (hne rfl).elim⟩

/-- A rule that does nothing and stays in its state. -/
theorem shifts_silent {s : StateId} : g.Shifts s ⟨pattern, pure s⟩ :=
  fun _ _ _ _ halike => ⟨rfl, rfl, halike⟩

/-! ### Rules between tokens -/

theorem shifts_stay {act : Act Token π Unit}
    (hact : ∀ text m payloads below, (act.perform (m.below text) below).2.effects =
      (act.perform m payloads).2.effects.map (.below text)) :
    g.Shifts g.main ⟨pattern, do act; pure g.main⟩ :=
  fun text m payloads below _ => ⟨rfl, hact text m payloads below, alike_main⟩

theorem shifts_end : g.Shifts g.main ⟨pattern, do Act.close; pure g.main⟩ :=
  shifts_stay fun _ _ _ _ => rfl

theorem shifts_emitMatch (kind : List Char → TokenKind) :
    g.Shifts g.main ⟨pattern, do Grammar.emitMatch kind; pure g.main⟩ :=
  shifts_stay fun _ _ _ _ => rfl

theorem shifts_emitToken (kind : TokenKind) (lexeme : String) :
    g.Shifts g.main ⟨pattern, do Grammar.emitToken kind lexeme; pure g.main⟩ :=
  shifts_stay fun _ _ _ _ => rfl

theorem shifts_emitChar (lead : Nat) :
    g.Shifts g.main ⟨pattern, do Grammar.emitChar lead; pure g.main⟩ := by
  refine shifts_stay fun text m payloads below => ?_
  rw [Grammar.emitChar, Act.perform_text_bind, Act.perform_text_bind, Matched.below]
  cases m.text[lead]? with
  | none => rfl
  | some c => rfl

/-! ### Rules of string literals -/

theorem shifts_openString : g.Shifts g.main ⟨pattern, Grammar.openString g.strings⟩ := by
  refine fun text m payloads below _ => ⟨rfl, rfl, alike_strings ?_⟩
  have hread : ∀ (m : Matched) (payloads : Payloads π),
      g.strings.read ((Grammar.openString g.strings).perform m payloads).2.payloads =
        ⟨m.span.start, [], ['"']⟩ := fun m payloads =>
    g.strings.read_set (g.unwrap_wrap _) payloads
  rw [hread, hread]
  rfl

theorem shifts_closeString :
    g.Shifts g.strings.state ⟨pattern, g.strings.update (Grammar.closeString g.main)⟩ := by
  intro text m payloads below halike
  rw [g.strings.perform_update rfl, g.strings.perform_update rfl]
  refine ⟨rfl, ?_, alike_main⟩
  rw [halike.strings rfl]
  rfl

theorem shifts_growString (meaning : List Char → List Char) :
    g.Shifts g.strings.state
      ⟨pattern, g.strings.update (Grammar.growString g.strings.state meaning)⟩ := by
  intro text m payloads below halike
  rw [g.strings.perform_update rfl, g.strings.perform_update rfl]
  refine ⟨rfl, rfl, alike_strings ?_⟩
  rw [g.strings.read_set (g.unwrap_wrap _), g.strings.read_set (g.unwrap_wrap _),
    halike.strings rfl]
  rfl

/-! ### Rules of block comments -/

namespace Counts

variable {g : Layers Scheme.Payload} {payloads below : Payloads Scheme.Payload}
  {slot : Slot Scheme.Payload Nat}

theorem alike (hcounts : g.Counts slot) (h : slot.read below = slot.read payloads) :
    g.Alike text slot.state payloads below := by
  refine ⟨fun hstrings => (hcounts.ne_strings hstrings).elim, fun _ _ => ?_⟩
  rw [hcounts.depth_eq, hcounts.depth_eq, h]

theorem read_eq (hcounts : g.Counts slot) (halike : g.Alike text slot.state payloads below) :
    slot.read below = slot.read payloads := by
  rw [← hcounts.depth_eq, ← hcounts.depth_eq]
  exact halike.depth hcounts.ne_main hcounts.ne_strings

theorem shifts_enter (hcounts : g.Counts slot) : g.Shifts g.main ⟨pattern, slot.enter 1⟩ := by
  refine fun text m payloads below _ => ⟨rfl, rfl, hcounts.alike ?_⟩
  have hread : ∀ (m : Matched) (payloads : Payloads Scheme.Payload),
      slot.read ((slot.enter 1 : Act Token Scheme.Payload StateId).perform m payloads).2.payloads =
        1 := fun m payloads => slot.read_set (hcounts.unwrap_wrap 1) payloads
  rw [hread, hread]

theorem shifts_open (hcounts : g.Counts slot) :
    g.Shifts slot.state ⟨pattern, slot.update (Scheme.openBlock slot.state)⟩ := by
  intro text m payloads below halike
  rw [slot.perform_update rfl, slot.perform_update rfl]
  refine ⟨rfl, rfl, hcounts.alike ?_⟩
  rw [slot.read_set (hcounts.unwrap_wrap _), slot.read_set (hcounts.unwrap_wrap _),
    hcounts.read_eq halike]

theorem shifts_close (hcounts : g.Counts slot) :
    g.Shifts slot.state ⟨pattern, slot.update (Scheme.closeBlock g.main slot.state)⟩ := by
  intro text m payloads below halike
  have hread := hcounts.read_eq halike
  rcases Nat.lt_or_ge 1 (slot.read payloads) with hmore | hlast
  case inr =>
    rw [slot.perform_update (by rw [Scheme.closeBlock_of_le hlast]; rfl),
      slot.perform_update (by rw [Scheme.closeBlock_of_le (hread ▸ hlast)]; rfl)]
    exact ⟨rfl, rfl, alike_main⟩
  case inl =>
    rw [slot.perform_update (by rw [Scheme.closeBlock_of_lt hmore]; rfl),
      slot.perform_update (by rw [Scheme.closeBlock_of_lt (hread ▸ hmore)]; rfl)]
    refine ⟨rfl, rfl, hcounts.alike ?_⟩
    rw [slot.read_set (hcounts.unwrap_wrap _), slot.read_set (hcounts.unwrap_wrap _), hread]

end Counts

/-! ### Runs -/

section

variable {t : RuleTable Token π} {s : StateId} {place : Position} {read : List Char}

theorem fire?_below (hshifts : ∀ s, ∀ rule ∈ t.rules s, g.Shifts s rule) {i : Nat}
    {firing : Firing Token π} (halike : g.Alike text s payloads below)
    (hfiring : t.fire? s i ⟨read, ⟨place, place.advanceBy read⟩⟩ payloads = some firing) :
    ∃ later, t.fire? s i
        ⟨read, ⟨place.below text, (place.below text).advanceBy read⟩⟩ below = some later ∧
      later.next = firing.next ∧ later.effects = firing.effects.map (.below text) ∧
      g.Alike text firing.next firing.payloads later.payloads := by
  obtain ⟨rule, hrule, rfl⟩ := Option.map_eq_some_iff.1 hfiring
  have hsame := hshifts s rule (List.mem_of_getElem? hrule) text
    ⟨read, ⟨place, place.advanceBy read⟩⟩ payloads below halike
  rw [Position.advanceBy_below, RuleTable.fire?, hrule]
  exact ⟨_, rfl, hsame.next, hsame.effects, hsame.alike⟩

/-- Below a text the procedure of maximal munch does the same. -/
theorem munches_below (hshifts : ∀ s, ∀ rule ∈ t.rules s, g.Shifts s rule) {preview : Nat}
    {fs : List (Firing Token π)} {e : Option LexError}
    (h : Munches t preview s payloads place read fs e) (text : List Char)
    (halike : g.Alike text s payloads below) :
    ∃ fs', Munches t preview s below (place.below text) read fs' (e.map (·.below text)) ∧
      fs'.flatMap (·.effects) = (fs.flatMap (·.effects)).map (.below text) := by
  induction h generalizing below with
  | finish hwins hfiring =>
    obtain ⟨later, hlater, -, heffects, -⟩ := fire?_below hshifts halike hfiring
    refine ⟨[later], .finish hwins hlater, ?_⟩
    rw [List.flatMap_singleton, List.flatMap_singleton, heffects]
  | next hwhole htext hne hwins hlongest hfiring _ ih =>
    obtain ⟨later, hlater, hnext, heffects, halike'⟩ := fire?_below hshifts halike hfiring
    obtain ⟨fs', hmunches, heffects'⟩ := ih halike'
    rw [← Position.advanceBy_below, ← hnext] at hmunches
    refine ⟨later :: fs', .next hwhole htext hne hwins hlongest hlater hmunches, ?_⟩
    rw [List.flatMap_cons, List.flatMap_cons, List.map_append, heffects, heffects']
  | stuck hwhole hnone => exact ⟨[], .stuck hwhole hnone, rfl⟩

end

end Layers

/-! ### The grammars -/

open Layers

theorem KLisp.shifts (s : StateId) : ∀ rule ∈ rules.rules s, layers.Shifts s rule := by
  obtain ⟨_ | _ | n⟩ := s
  · refine List.forall_mem_cons.2 ⟨shifts_openString, ?_⟩
    iterate 4 refine List.forall_mem_cons.2 ⟨shifts_emitToken _ _, ?_⟩
    refine List.forall_mem_cons.2 ⟨shifts_end, ?_⟩
    iterate 2 refine List.forall_mem_cons.2 ⟨shifts_silent, ?_⟩
    iterate 4 refine List.forall_mem_cons.2 ⟨shifts_emitMatch _, ?_⟩
    exact List.forall_mem_singleton.2 (shifts_emitChar 1)
  · refine List.forall_mem_cons.2 ⟨shifts_closeString, ?_⟩
    iterate 4 refine List.forall_mem_cons.2 ⟨shifts_growString _, ?_⟩
    exact List.forall_mem_singleton.2 (shifts_growString _)
  · exact fun _ h => nomatch h

theorem Scheme.shifts (s : StateId) : ∀ rule ∈ rules.rules s, layers.Shifts s rule := by
  obtain ⟨_ | _ | _ | n⟩ := s
  · refine List.forall_mem_cons.2 ⟨counts.shifts_enter, ?_⟩
    refine List.forall_mem_cons.2 ⟨shifts_openString, ?_⟩
    -- The marks, the brackets, the point and the truth values.
    iterate 14 refine List.forall_mem_cons.2 ⟨shifts_emitToken _ _, ?_⟩
    refine List.forall_mem_cons.2 ⟨shifts_end, ?_⟩
    iterate 2 refine List.forall_mem_cons.2 ⟨shifts_silent, ?_⟩
    refine List.forall_mem_cons.2 ⟨shifts_emitChar 2, ?_⟩
    refine List.forall_mem_cons.2 ⟨shifts_emitMatch _, ?_⟩
    exact List.forall_mem_singleton.2 (shifts_emitMatch _)
  · refine List.forall_mem_cons.2 ⟨counts.shifts_open, ?_⟩
    refine List.forall_mem_cons.2 ⟨shifts_silent, ?_⟩
    exact List.forall_mem_singleton.2 counts.shifts_close
  · refine List.forall_mem_cons.2 ⟨shifts_closeString, ?_⟩
    iterate 4 refine List.forall_mem_cons.2 ⟨shifts_growString _, ?_⟩
    exact List.forall_mem_singleton.2 (shifts_growString _)
  · exact fun _ h => nomatch h

end DerivativeLexer
