import DerivativeLexer.Grammar.Scheme
import DerivativeLexer.Proofs.Grammar.Layout
import DerivativeLexer.Proofs.Grammar.Patterns
import DerivativeLexer.Proofs.Lexer.MaximalMunch

/-! # Rules that account for what they read

A grammar has one state for what stands between the tokens, one for the inside of a string literal,
and for the inside of block comments a third. In each of them a rule that fires leaves it to the
later ones to account for the text behind its match, in the state it goes on in. A rule keeps the
account if they then account, together with what the rule emits, for its match too. If every rule
of a table keeps it, a whole run accounts for the whole text. -/

namespace DerivativeLexer

open DerivativeLexer.Language

variable {τ π σ : Type}

/-! ### What an action does -/

theorem Act.perform_text_bind {α : Type} (f : List Char → Act τ π α) (m : Matched)
    (payloads : Payloads π) :
    (Act.text >>= f).perform m payloads = (f m.text).perform m payloads := rfl

theorem Scheme.closeBlock_of_le {main block : StateId} {depth : Nat} (h : depth ≤ 1) :
    closeBlock main block depth = pure (main, depth) := if_pos h

theorem Scheme.closeBlock_of_lt {main block : StateId} {depth : Nat} (h : 1 < depth) :
    closeBlock main block depth = pure (block, depth - 1) := if_neg (Nat.not_le.2 h)

namespace Slot

variable (slot : Slot π σ)

theorem read_set {x : σ} (h : slot.unwrap? (slot.wrap x) = some x) (payloads : Payloads π) :
    slot.read (payloads.set slot.state (slot.wrap x)) = x := by
  rw [read, Payloads.get?_set_self, Option.bind_some, h, Option.getD_some]

/-- What an update does if its action leaves the payloads alone. -/
theorem perform_update {act : σ → Act τ π (StateId × σ)} {m : Matched} {payloads : Payloads π}
    {next : StateId} {after : σ} {effects : List (Effect τ)}
    (h : (act (slot.read payloads)).perform m (payloads.erase slot.state) =
      ((next, after), ⟨effects, payloads.erase slot.state⟩)) :
    (slot.update act).perform m payloads =
      (next, ⟨effects, (payloads.erase slot.state).set slot.state (slot.wrap after)⟩) := by
  have hupdate : (slot.update act).perform m payloads =
      let done := (act (slot.read payloads)).perform m (payloads.erase slot.state)
      (done.1.1, (((slot.putBack done.1.2).run m).run done.2).2) := rfl
  rw [hupdate, h]
  unfold Slot.putBack
  dsimp only [modify, modifyGet, MonadStateOf.modifyGet, StateT.modifyGet, StateT.run, ReaderT.run,
    monadLift, MonadLift.monadLift]
  rw [Payloads.get?_erase_self]
  rfl

end Slot

/-- What a rule does when it fires on a match of its pattern. -/
theorem RuleTable.Matches.of_fire? {t : RuleTable τ π} {s : StateId} {w : List Symbol} {i : Nat}
    {m : Matched} {payloads : Payloads π} {firing : Firing τ π} (h : t.Matches s w i)
    (hfiring : t.fire? s i m payloads = some firing) :
    ∃ rule ∈ t.rules s, w ∈ rule.pattern.words ∧
      rule.action.perform m payloads = (firing.next, ⟨firing.effects, firing.payloads⟩) := by
  obtain ⟨rule, hrule, hwords⟩ := h
  rw [RuleTable.fire?, hrule] at hfiring
  obtain rfl := Option.some.inj hfiring
  exact ⟨rule, List.mem_of_getElem? hrule, hwords, rfl⟩

/-! ### The account of a text -/

/-- How a grammar uses its states: one between tokens, one inside of string literals, and any other
inside of block comments. -/
structure Layers (π : Type) where
  main : StateId
  strings : Slot π StringBody
  depth : Payloads π → Nat
  blocks : Bool
  apart : strings.state ≠ main
  unwrap_wrap : ∀ body, strings.unwrap? (strings.wrap body) = some body

namespace Layers

/-- The state behind the slot counts how deep a block comment is. -/
structure Counts (g : Layers π) (slot : Slot π Nat) : Prop where
  blocks : g.blocks = true
  ne_main : slot.state ≠ g.main
  ne_strings : slot.state ≠ g.strings.state
  depth_eq : ∀ payloads, g.depth payloads = slot.read payloads
  unwrap_wrap : ∀ n, slot.unwrap? (slot.wrap n) = some n

/-- The tokens are those of the text, if lexing goes on in a state with some payloads. -/
def Accounts (g : Layers π) (s : StateId) (payloads : Payloads π) (place : Position)
    (text : List Char) (tokens : List Token) : Prop :=
  if s = g.main then Laid g.blocks place text tokens
  else if s = g.strings.state then
    LaidInString g.blocks (g.strings.read payloads).start (g.strings.read payloads).lexeme place
      text tokens
  else ∀ n, g.depth payloads = n + 1 → LaidInBlock g.blocks n place text tokens

/-- What accounts for the text behind a match of the rule does so, together with what the rule
emits, from the match on. -/
structure Keeps (g : Layers π) (t : RuleTable Token π) (s : StateId) (rule : Rule Token π) :
    Prop where
  next : ∀ {p q : List Char} {payloads : Payloads π} {place : Position}
      {done : StateId × Outbox Token π} {later : List (Effect Token)},
    symbols p ∈ rule.pattern.words → p ≠ [] →
    (∀ c ∈ q.head?, ∀ a ∈ (t.rules s).map (·.pattern), symbols (p ++ [c]) ∉ a.words) →
    rule.action.perform ⟨p, ⟨place, place.advanceBy p⟩⟩ payloads = done →
    g.Accounts done.1 done.2.payloads (place.advanceBy p) q (Effect.emitted later) →
    g.Accounts s payloads place (p ++ q) (Effect.emitted (done.2.effects ++ later))
  last : ∀ {text : List Char} {payloads : Payloads π} {place : Position}
      {done : StateId × Outbox Token π},
    symbols text ++ [.endMark] ∈ rule.pattern.words →
    rule.action.perform ⟨text, ⟨place, place.advanceBy text⟩⟩ payloads = done →
    g.Accounts s payloads place text (Effect.emitted done.2.effects)

variable {g : Layers π} {t : RuleTable Token π} {payloads : Payloads π} {place : Position}
  {text : List Char} {tokens : List Token} {pattern : Language}

theorem accounts_main :
    g.Accounts g.main payloads place text tokens ↔ Laid g.blocks place text tokens := by
  rw [Accounts, if_pos rfl]

theorem accounts_strings :
    g.Accounts g.strings.state payloads place text tokens ↔
      LaidInString g.blocks (g.strings.read payloads).start (g.strings.read payloads).lexeme place
        text tokens := by
  rw [Accounts, if_neg g.apart, if_pos rfl]

theorem Counts.accounts {slot : Slot π Nat} (h : g.Counts slot) :
    g.Accounts slot.state payloads place text tokens ↔
      ∀ n, slot.read payloads = n + 1 → LaidInBlock g.blocks n place text tokens := by
  rw [Accounts, if_neg h.ne_main, if_neg h.ne_strings, h.depth_eq]

theorem notMem_last (hreads : pattern.readsEnd = false) :
    symbols text ++ [.endMark] ∉ pattern.words :=
  fun h => endMark_notMem hreads h (List.mem_append_right _ (List.mem_singleton_self _))

/-! ### Rules between tokens -/

theorem keeps_end : g.Keeps t g.main ⟨.endOfInput, do Act.close; pure g.main⟩ where
  next := by
    intro p q payloads place done later hp
    have hend : symbols p = [.endMark] := hp
    cases p with
    | nil => cases hend
    | cons c rest => cases hend
  last := by
    rintro text payloads place done htext rfl
    have hend : symbols text ++ [.endMark] = [] ++ [.endMark] := htext
    obtain rfl := List.map_eq_nil_iff.1 (List.append_cancel_right hend)
    exact accounts_main.2 (.last .nil)

theorem keeps_whitespace : g.Keeps t g.main ⟨Grammar.whitespace, pure g.main⟩ where
  next := by
    rintro p q payloads place done later hp hne hlongest rfl h
    exact accounts_main.2 ((accounts_main.1 h).blanks (Grammar.mem_of_whitespace hp))
  last := fun h => (notMem_last Grammar.readsEnd_whitespace h).elim

theorem keeps_comment (hmem : Grammar.comment ∈ (t.rules g.main).map (·.pattern)) :
    g.Keeps t g.main ⟨Grammar.comment, pure g.main⟩ where
  next := by
    rintro p q payloads place done later hp hne hlongest rfl h
    obtain ⟨body, rfl, hbody⟩ := Grammar.symbols_mem_comment.1 hp
    -- A character that the comment could go on with would make its match longer.
    have hbehind : ∀ c ∈ q.head?, c = '\r' ∨ c = '\n' := by
      intro c hc
      by_contra hline
      refine hlongest c hc _ hmem (Grammar.symbols_mem_comment.2 ⟨body ++ [c], rfl, ?_⟩)
      rw [List.forall_mem_append, List.forall_mem_singleton]
      exact ⟨hbody, not_or.1 hline⟩
    exact accounts_main.2 ((accounts_main.1 h).cons_piece (.comment hbody hbehind))
  last := fun h => (notMem_last Grammar.readsEnd_comment h).elim

/-- A rule that emits its match as a token. -/
theorem keeps_emit {act : Act Token π Unit} (hreads : pattern.readsEnd = false)
    (hact : ∀ (m : Matched) (payloads : Payloads π), symbols m.text ∈ pattern.words →
      ∃ kind, act.perform m payloads =
        ((), ⟨[.emit ⟨kind, String.ofList m.text, m.span⟩], payloads⟩)) :
    g.Keeps t g.main ⟨pattern, do act; pure g.main⟩ where
  next := by
    rintro p q payloads place done later hp hne hlongest hdone h
    obtain ⟨kind, hact⟩ := hact ⟨p, ⟨place, place.advanceBy p⟩⟩ payloads hp
    have hperform : done = (g.main, (act.perform ⟨p, ⟨place, place.advanceBy p⟩⟩ payloads).2) :=
      hdone.symm
    rw [hact] at hperform
    subst hperform
    exact accounts_main.2 (.token .nil hne rfl rfl (accounts_main.1 h))
  last := fun h => (notMem_last hreads h).elim

theorem keeps_emitMatch (kind : List Char → TokenKind) (hreads : pattern.readsEnd = false) :
    g.Keeps t g.main ⟨pattern, do Grammar.emitMatch kind; pure g.main⟩ :=
  keeps_emit hreads fun m _ _ => ⟨kind m.text, rfl⟩

theorem keeps_emitToken (kind : TokenKind) (lexeme : String) :
    g.Keeps t g.main ⟨lit lexeme, do Grammar.emitToken kind lexeme; pure g.main⟩ := by
  refine keeps_emit (readsEnd_lit lexeme) fun m payloads hm => ⟨kind, ?_⟩
  rw [symbols_mem_lit.1 hm, String.ofList_toList]
  rfl

theorem keeps_emitChar (introducer : String) {lead : Nat}
    (hlead : introducer.toList.length = lead) :
    g.Keeps t g.main
      ⟨(lit introducer).followedBy anyChar, do Grammar.emitChar lead; pure g.main⟩ := by
  refine keeps_emit (readsEnd_followedBy (readsEnd_lit _) rfl) fun m payloads hm => ?_
  obtain ⟨c, hc⟩ := symbols_mem_lit_anyChar.1 hm
  have hget : m.text[lead]? = some c := by
    rw [hc, ← hlead]
    exact List.getElem?_concat_length
  rw [Grammar.emitChar, Act.perform_text_bind, hget]
  exact ⟨.char c, rfl⟩

/-! ### Rules of string literals -/

theorem keeps_openString : g.Keeps t g.main ⟨lit "\"", Grammar.openString g.strings⟩ where
  next := by
    intro p q payloads place done later hp hne hlongest hdone h
    obtain rfl := symbols_mem_lit.1 hp
    obtain rfl : done = (g.strings.state,
        ⟨[], payloads.set g.strings.state (g.strings.wrap ⟨place, [], ['"']⟩)⟩) := hdone.symm
    have hinside := accounts_strings.1 h
    rw [Slot.read_set _ (g.unwrap_wrap _)] at hinside
    exact accounts_main.2 (Laid.openString hinside hne)
  last := fun h => (notMem_last (readsEnd_lit _) h).elim

theorem keeps_closeString :
    g.Keeps t g.strings.state ⟨lit "\"", g.strings.update (Grammar.closeString g.main)⟩ where
  next := by
    intro p q payloads place done later hp hne hlongest hdone h
    obtain rfl := symbols_mem_lit.1 hp
    rw [g.strings.perform_update rfl] at hdone
    subst hdone
    exact accounts_strings.2 (.close rfl rfl (accounts_main.1 h))
  last := fun h => (notMem_last (readsEnd_lit _) h).elim

theorem keeps_growString (meaning : List Char → List Char) (hreads : pattern.readsEnd = false) :
    g.Keeps t g.strings.state
      ⟨pattern, g.strings.update (Grammar.growString g.strings.state meaning)⟩ where
  next := by
    intro p q payloads place done later hp hne hlongest hdone h
    rw [g.strings.perform_update rfl] at hdone
    subst hdone
    have hinside := accounts_strings.1 h
    rw [Slot.read_set _ (g.unwrap_wrap _)] at hinside
    exact accounts_strings.2 (Laid.growString hinside)
  last := fun h => (notMem_last hreads h).elim

theorem keeps_escape (mark : Char) (meaning : List Char → List Char) :
    g.Keeps t g.strings.state ⟨(lit "\\").followedBy (literal mark),
      g.strings.update (Grammar.growString g.strings.state meaning)⟩ :=
  keeps_growString meaning (readsEnd_followedBy (readsEnd_lit _) rfl)

/-! ### Rules of block comments -/

namespace Counts

variable {g : Layers Scheme.Payload} {t : RuleTable Token Scheme.Payload}
  {slot : Slot Scheme.Payload Nat}

theorem keeps_enter (hcounts : g.Counts slot) :
    g.Keeps t g.main ⟨lit "#!", slot.enter 1⟩ where
  next := by
    intro p q payloads place done later hp hne hlongest hdone h
    obtain rfl := symbols_mem_lit.1 hp
    obtain rfl : done = (slot.state, ⟨[], payloads.set slot.state (slot.wrap 1)⟩) := hdone.symm
    have hinside := hcounts.accounts.1 h 0 (slot.read_set (hcounts.unwrap_wrap 1) payloads)
    exact accounts_main.2 (Laid.openBlock hinside hcounts.blocks)
  last := fun h => (notMem_last (readsEnd_lit _) h).elim

theorem keeps_open (hcounts : g.Counts slot) :
    g.Keeps t slot.state ⟨lit "#!", slot.update (Scheme.openBlock slot.state)⟩ where
  next := by
    intro p q payloads place done later hp hne hlongest hdone h
    obtain rfl := symbols_mem_lit.1 hp
    rw [slot.perform_update rfl] at hdone
    subst hdone
    refine hcounts.accounts.2 fun n hn => Laid.nestBlock (hcounts.accounts.1 h (n + 1) ?_)
    rw [slot.read_set (hcounts.unwrap_wrap _), hn]
  last := fun h => (notMem_last (readsEnd_lit _) h).elim

theorem keeps_close (hcounts : g.Counts slot) :
    g.Keeps t slot.state ⟨lit "!#", slot.update (Scheme.closeBlock g.main slot.state)⟩ where
  next := by
    intro p q payloads place done later hp hne hlongest hdone h
    obtain rfl := symbols_mem_lit.1 hp
    refine hcounts.accounts.2 fun n hn => ?_
    cases n with
    | zero =>
      rw [slot.perform_update (by rw [Scheme.closeBlock_of_le (by omega)]; rfl)] at hdone
      subst hdone
      exact .outer .close (accounts_main.1 h)
    | succ n =>
      rw [slot.perform_update (by rw [Scheme.closeBlock_of_lt (by omega)]; rfl)] at hdone
      subst hdone
      refine .inner .close (hcounts.accounts.1 h n ?_)
      rw [slot.read_set (hcounts.unwrap_wrap _), hn, Nat.add_sub_cancel]
  last := fun h => (notMem_last (readsEnd_lit _) h).elim

theorem keeps_char (hcounts : g.Counts slot)
    (hopen : lit "#!" ∈ (t.rules slot.state).map (·.pattern))
    (hclose : lit "!#" ∈ (t.rules slot.state).map (·.pattern)) :
    g.Keeps t slot.state ⟨anyChar, pure slot.state⟩ where
  next := by
    rintro p q payloads place done later hp hne hlongest rfl h
    obtain ⟨c, rfl⟩ := symbols_mem_anyChar.1 hp
    -- A comment that opens or closes here would be the longer match.
    have hpair : ∀ {a b}, lit (String.ofList [a, b]) ∈ (t.rules slot.state).map (·.pattern) →
        ¬[a, b] <+: c :: q := by
      rintro a b hmem ⟨rest, hrest⟩
      obtain ⟨rfl, rfl⟩ := List.cons.inj hrest
      exact hlongest b rfl _ hmem (symbols_mem_lit.2 (String.toList_ofList ..).symm)
    exact hcounts.accounts.2 fun n hn =>
      Laid.growBlock (hcounts.accounts.1 h n hn) (hpair hopen) (hpair hclose)
  last := fun h => (notMem_last rfl h).elim

end Counts

/-! ### Runs -/

theorem accounts_munches {preview : Nat} {s : StateId} {fs : List (Firing Token π)}
    {e : Option LexError} (hkeeps : ∀ s, ∀ rule ∈ t.rules s, g.Keeps t s rule)
    (h : Munches t preview s payloads place text fs e) (hend : e = none) :
    g.Accounts s payloads place text (Effect.emitted (fs.flatMap (·.effects))) := by
  induction h with
  | finish hwins hfiring =>
    obtain ⟨rule, hrule, hwords, hperform⟩ := hwins.1.of_fire? hfiring
    rw [List.flatMap_singleton]
    exact (hkeeps _ rule hrule).last hwords hperform
  | next hwhole htext hne hwins hlongest hfiring hlater ih =>
    obtain ⟨rule, hrule, hwords, hperform⟩ := hwins.1.of_fire? hfiring
    subst htext
    refine (hkeeps _ rule hrule).next hwords hne (fun c hc a ha hword => ?_) hperform (ih hend)
    obtain ⟨other, hother, rfl⟩ := List.mem_map.1 ha
    obtain ⟨j, hj⟩ := List.mem_iff_getElem?.1 hother
    refine hlongest _ ?_ ?_ j ⟨other, hj, hword⟩
    · obtain ⟨q, rfl⟩ := List.head?_eq_some_iff.1 hc
      exact ⟨q, by rw [List.append_assoc, List.singleton_append]⟩
    · rw [List.length_append, List.length_singleton]
      exact Nat.lt_succ_self _
  | stuck => cases hend

end Layers

end DerivativeLexer
