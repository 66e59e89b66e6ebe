import DerivativeLexer.Balance
import DerivativeLexer.Proofs.Grammar.Resumption
import DerivativeLexer.Proofs.Grammar.Shifting

/-! # Line by line

A text that lexes keeps its tokens when a line feed and more text are put behind it, and that text
is lexed as if it stood alone. The only match that goes on over the line feed is one of blanks: a
rule that has a word with a line feed in it has it as a blank, as a single character, or as the
character behind the introducer of a character literal, and no text that lexes ends with an
introducer. How the blanks around the line feed are cut into matches makes no difference, because
they yield nothing. -/

namespace DerivativeLexer

open DerivativeLexer.Language

variable {τ π : Type}

/-! ### The tokens of a text from a state on -/

theorem Effect.emitted_append {a : List (Effect τ)} (h : .close ∉ a) (b : List (Effect τ)) :
    emitted (a ++ b) = emitted a ++ emitted b := by
  induction a with
  | nil => rfl
  | cons effect later ih =>
    rw [List.mem_cons, not_or] at h
    cases effect with
    | emit item => exact congrArg (item :: ·) (ih h.2)
    | close => exact (h.1 rfl).elim
    | request r => exact ih h.2

/-- From a state on the procedure of maximal munch emits these tokens for the text, and ends with
the error if there is one. -/
def Lexer.Tokenizes (l : Lexer τ π) (s : StateId) (payloads : Payloads π) (place : Position)
    (text : List Char) (tokens : List τ) (e : Option LexError) : Prop :=
  ∃ fs, Munches l.rules l.config.preview s payloads place text fs e ∧
    Effect.emitted (fs.flatMap (·.effects)) = tokens

/-- The result of lexing a text. -/
def Lexer.outcome (tokens : List τ) : Option LexError → Except LexError (List τ)
  | none => .ok tokens
  | some e => .error e

section

variable {l : Lexer τ π} {text : List Char} {tokens : List τ} {e : Option LexError}

theorem Lexer.exists_tokenizes (l : Lexer τ π) (hmax : l.config.maxMatch = none)
    (text : List Char) : ∃ tokens e, l.Tokenizes RuleTable.initial .empty .start text tokens e ∧
      l.tokenize text = outcome tokens e := by
  obtain ⟨e, hmunches, -, -, hresult⟩ := l.maximal_munch hmax text
  refine ⟨_, e, ⟨_, hmunches, rfl⟩, hresult.trans ?_⟩
  cases e with
  | none => rfl
  | some e => rfl

theorem Lexer.Tokenizes.tokenize_eq (hmax : l.config.maxMatch = none)
    (h : l.Tokenizes RuleTable.initial .empty .start text tokens e) :
    l.tokenize text = outcome tokens e := by
  obtain ⟨fs, hmunches, rfl⟩ := h
  obtain ⟨e', -, hunique, -, hresult⟩ := l.maximal_munch hmax text
  obtain ⟨rfl, rfl⟩ := hunique fs e hmunches
  refine hresult.trans ?_
  cases e with
  | none => rfl
  | some e => rfl

end

/-- A beginning of a text that is longer than the first part goes on with the second. -/
theorem exists_of_longer_prefix {α : Type} {p q r : List α} (hr : r <+: p ++ q)
    (hlt : p.length < r.length) : ∃ c more rest, r = p ++ c :: more ∧ q = c :: rest := by
  obtain ⟨more, rfl⟩ := List.prefix_of_prefix_length_le (List.prefix_append p q) hr
    (Nat.le_of_lt hlt)
  obtain ⟨rest, rfl⟩ := (List.prefix_append_right_inj _).1 hr
  cases more with
  | nil =>
    rw [List.append_nil] at hlt
    exact (Nat.lt_irrefl _ hlt).elim
  | cons c more => exact ⟨c, more, more ++ rest, rfl, rfl⟩

/-! ### What a grammar has to do with line feeds -/

/-- The text is made of blanks. -/
def Blank (p : List Char) : Prop := ∀ c ∈ p, c ∈ [' ', '\r', '\t', '\n']

namespace Layers

/-- In a grammar only the rule for blanks has matches that begin with a blank; only the end of the
input is read behind a text, in the main state; and a line feed is read as a blank, as a single
character, or behind the introducer of a character literal, of which no part is a match. -/
structure BreaksLines (g : Layers π) (t : RuleTable Token π) (introducer : String) : Prop where
  blanks : ∃ before after, t.rules g.main = before ++ ⟨Grammar.whitespace, pure g.main⟩ :: after ∧
    ∀ other ∈ before ++ after,
      [' ', '\r', '\t', '\n'].all (fun c => (other.pattern.derive (.char c)).rejectsAll) = true
  readsEnd : ∀ s, ∀ rule ∈ t.rules s, rule.pattern.readsEnd = true →
    s = g.main ∧ rule.pattern = .endOfInput
  lineFeed : ∀ s, ∀ rule ∈ t.rules s, rule.pattern.reads (.char '\n') = true →
    rule.pattern = .anyChar ∨ s = g.main ∧
      (rule.pattern = Grammar.whitespace ∨ rule.pattern = (lit introducer).followedBy anyChar)
  introducer : '\n' ∉ introducer.toList ∧ ∀ p ∈ introducer.toList.inits, p ≠ [] →
    ∀ rule ∈ t.rules g.main, rule.pattern.accepts p = false

namespace BreaksLines

variable {g : Layers π} {t : RuleTable Token π} {introducer : String} {s : StateId}
  {p q r u text : List Char} {i : Nat}

/-- A rule that has a match which begins with a blank is the rule for blanks. -/
theorem eq_whitespace (h : g.BreaksLines t introducer) {rule : Rule Token π}
    (hrule : rule ∈ t.rules g.main) {c : Char} (hc : c ∈ [' ', '\r', '\t', '\n']) {w : List Symbol}
    (hwords : .char c :: w ∈ rule.pattern.words) :
    rule = ⟨Grammar.whitespace, pure g.main⟩ := by
  obtain ⟨before, after, hrules, hothers⟩ := h.blanks
  by_contra hne
  have hother : rule ∈ before ++ after := by
    rw [hrules] at hrule
    rcases List.mem_append.1 hrule with hmem | hmem
    · exact List.mem_append_left _ hmem
    · exact List.mem_append_right _ ((List.mem_cons.1 hmem).resolve_left hne)
  have hrejects := (Language.rejectsAll_deriveWord_iff rule.pattern [.char c]).1
    (List.all_eq_true.1 (hothers rule hother) c hc) w
  exact hrejects hwords

theorem first_blanks (h : g.BreaksLines t introducer) (hne : p ≠ []) (hblank : Blank p) :
    t.First g.main (symbols p) ⟨Grammar.whitespace, pure g.main⟩ := by
  obtain ⟨before, after, hrules, hothers⟩ := h.blanks
  refine ⟨before, after, hrules, Grammar.symbols_mem_whitespace.2 ⟨hne, hblank⟩, ?_⟩
  obtain ⟨c, rest, rfl⟩ := List.exists_cons_of_ne_nil hne
  intro other hother
  have hrejects := List.all_eq_true.1 (hothers other (List.mem_append_left _ hother)) c
    (hblank c List.mem_cons_self)
  exact (Language.rejectsAll_deriveWord_iff other.pattern [.char c]).1 hrejects _

/-- No rule reads the end of the input behind a character. -/
theorem not_matches_end (h : g.BreaksLines t introducer) (hne : text ≠ []) (j : Nat) :
    ¬t.Matches s (symbols text ++ [.endMark]) j := by
  rintro ⟨rule, hrule, hwords⟩
  cases hreads : rule.pattern.readsEnd with
  | false => exact Layers.notMem_last hreads hwords
  | true =>
    obtain ⟨-, hpattern⟩ := h.readsEnd s rule (List.mem_of_getElem? hrule) hreads
    rw [hpattern] at hwords
    have hend : symbols text ++ [.endMark] = [] ++ [.endMark] := hwords
    exact hne (List.map_eq_nil_iff.1 (List.append_cancel_right hend))

/-- The end of the input is read in the main state, where nothing is left. -/
theorem eq_main_of_end (h : g.BreaksLines t introducer)
    (hmatches : t.Matches s (symbols text ++ [.endMark]) i) : s = g.main ∧ text = [] := by
  refine ⟨?_, by_contra fun hne => h.not_matches_end hne i hmatches⟩
  obtain ⟨rule, hrule, hwords⟩ := hmatches
  cases hreads : rule.pattern.readsEnd with
  | false => exact (Layers.notMem_last hreads hwords).elim
  | true => exact (h.readsEnd s rule (List.mem_of_getElem? hrule) hreads).1

/-- What a match that goes on over a line feed has before it: blanks, or the introducer of a
character literal. -/
theorem before_lineFeed (h : g.BreaksLines t introducer) (hne : u ≠ [])
    (hmatches : t.Matches s (symbols (u ++ '\n' :: r)) i) :
    s = g.main ∧ (Blank u ∨ u = introducer.toList) := by
  obtain ⟨rule, hrule, hwords⟩ := hmatches
  have hreads : rule.pattern.reads (.char '\n') = true := by
    by_contra hreads
    refine Language.notMem_of_reads (Bool.eq_false_iff.2 hreads) hwords ?_
    exact List.mem_map_of_mem (List.mem_append_right _ List.mem_cons_self)
  rcases h.lineFeed s rule (List.mem_of_getElem? hrule) hreads with hany | ⟨hmain, hblank | hchar⟩
  · rw [hany] at hwords
    obtain ⟨c, hc⟩ := symbols_mem_anyChar.1 hwords
    obtain ⟨d, rest, rfl⟩ := List.exists_cons_of_ne_nil hne
    cases (List.append_eq_nil_iff.1 (List.cons.inj hc).2).2
  · rw [hblank] at hwords
    exact ⟨hmain, .inl (List.forall_mem_append.1 (Grammar.mem_of_whitespace hwords)).1⟩
  · rw [hchar] at hwords
    exact ⟨hmain, .inr (eq_of_symbols_mem_lit_anyChar hwords h.introducer.1)⟩

theorem not_matches_introducer (h : g.BreaksLines t introducer) (hp : p <+: introducer.toList)
    (hne : p ≠ []) (j : Nat) : ¬t.Matches g.main (symbols p) j := by
  rintro ⟨rule, hrule, hwords⟩
  have hrejects := h.introducer.2 p ((List.mem_inits _ _).2 hp) hne rule
    (List.mem_of_getElem? hrule)
  rw [Language.accepts, (Language.acceptsEmpty_deriveWord_iff _ _).2 hwords] at hrejects
  cases hrejects

/-- A match that is not one of blanks is no longer with a line feed and more text behind. -/
theorem longest_append (h : g.BreaksLines t introducer) (hne : p ≠ [])
    (hmatches : t.Matches s (symbols p) i) (hblank : ¬(s = g.main ∧ Blank p))
    (hlongest : ∀ r, r <+: p ++ q → p.length < r.length → ∀ j, ¬t.Matches s (symbols r) j)
    (b : List Char) :
    ∀ r, r <+: p ++ (q ++ '\n' :: b) → p.length < r.length → ∀ j, ¬t.Matches s (symbols r) j := by
  intro r hr hlt j hlonger
  rw [← List.append_assoc] at hr
  rcases List.prefix_or_prefix_of_prefix hr (List.prefix_append (p ++ q) _) with hr' | hr'
  · exact hlongest r hr' hlt j hlonger
  · obtain ⟨more, rfl⟩ := hr'
    cases more with
    | nil =>
      rw [List.append_nil] at hlonger hlt
      exact hlongest _ (List.prefix_refl _) hlt j hlonger
    | cons d more =>
      -- the match goes on over the line feed, and `p` is a part of what it has before it
      obtain ⟨rfl, -⟩ := List.cons_prefix_cons.1 ((List.prefix_append_right_inj _).1 hr)
      obtain ⟨hmain, hspace | hchar⟩ :=
        h.before_lineFeed (List.append_ne_nil_of_left_ne_nil hne q) hlonger
      · exact hblank ⟨hmain, (List.forall_mem_append.1 hspace).1⟩
      · rw [hmain] at hmatches
        exact h.not_matches_introducer ⟨q, hchar⟩ hne i hmatches

end BreaksLines

/-! ### Blanks -/

section

variable {g : Layers π} {l : Lexer Token π} {introducer : String} {s : StateId}
  {payloads : Payloads π} {place : Position} {p q b text : List Char} {i : Nat}
  {tokens : List Token} {e : Option LexError} {firing : Firing Token π}
  {later : List (Firing Token π)}

/-- The rule for blanks does nothing. -/
theorem BreaksLines.fire?_blanks (h : g.BreaksLines l.rules introducer) (hne : p ≠ [])
    (hblank : Blank p) (hwins : l.rules.Wins g.main (symbols p) i) {m : Matched}
    (hfiring : l.rules.fire? g.main i m payloads = some firing) :
    firing.next = g.main ∧ firing.payloads = payloads ∧ firing.effects = [] := by
  obtain ⟨j, hwins', hfire⟩ := (h.first_blanks hne hblank).wins
  rw [hwins.unique hwins', hfire] at hfiring
  obtain rfl := Option.some.inj hfiring
  exact ⟨rfl, rfl, rfl⟩

/-- Blanks that no other blank follows are the longest match. -/
theorem BreaksLines.nothingBeyond_blanks (h : g.BreaksLines l.rules introducer) (hne : p ≠ [])
    (hblank : Blank p) (hbehind : ∀ c ∈ q.head?, c ∉ [' ', '\r', '\t', '\n']) :
    l.rules.NothingBeyond g.main (p ++ q) p.length where
  beginning := by
    rintro r hr hlt k ⟨rule, hrule, hwords⟩
    obtain ⟨d, more, rest, rfl, rfl⟩ := exists_of_longer_prefix hr hlt
    obtain ⟨c, p', rfl⟩ := List.exists_cons_of_ne_nil hne
    rw [h.eq_whitespace (List.mem_of_getElem? hrule) (hblank c List.mem_cons_self) hwords]
      at hwords
    -- a longer match would go on with a blank
    exact hbehind d rfl (Grammar.mem_of_whitespace hwords d
      (List.mem_append_right _ List.mem_cons_self))
  whole := h.not_matches_end (List.append_ne_nil_of_left_ne_nil hne q)

/-- Blanks that no other blank follows are one match, which yields nothing. -/
theorem BreaksLines.tokenizes_blanks_of_not (h : g.BreaksLines l.rules introducer) (hne : p ≠ [])
    (hblank : Blank p) (hbehind : ∀ c ∈ q.head?, c ∉ [' ', '\r', '\t', '\n'])
    (hlater : l.Tokenizes g.main payloads (place.advanceBy p) q tokens e) :
    l.Tokenizes g.main payloads place (p ++ q) tokens e := by
  obtain ⟨fs, hmunches, htokens⟩ := hlater
  obtain ⟨j, hwins, hfire⟩ := (h.first_blanks hne hblank).wins
  have hbeyond := h.nothingBeyond_blanks hne hblank hbehind
  exact ⟨_ :: fs, .next hbeyond.whole rfl hne hwins hbeyond.beginning (hfire _ payloads) hmunches,
    htokens⟩

/-- A text that begins with a blank has a first match of blanks, which yields nothing. -/
theorem BreaksLines.cut_blanks (h : g.BreaksLines l.rules introducer) {c : Char}
    (hc : c ∈ [' ', '\r', '\t', '\n'])
    (hlexes : l.Tokenizes g.main payloads place (c :: text) tokens e) :
    ∃ p q, p ≠ [] ∧ Blank p ∧ p ++ q = c :: text ∧
      (∀ d ∈ q.head?, d ∉ [' ', '\r', '\t', '\n']) ∧
      l.Tokenizes g.main payloads (place.advanceBy p) q tokens e := by
  obtain ⟨fs, hmunches, rfl⟩ := hlexes
  have hmatches : ∀ {p : List Char}, p ≠ [] → Blank p → ∃ j, l.rules.Matches g.main (symbols p) j :=
    fun hne hblank => (h.first_blanks hne hblank).wins.imp fun _ hwins => hwins.1.1
  cases hmunches with
  | finish hwins => exact (h.not_matches_end (List.cons_ne_nil c text) _ hwins.1).elim
  | @next _ _ _ _ p q i firing later _ hwhole htext hne hwins hlongest hfiring hlater =>
    have hblank : Blank p := by
      obtain ⟨d, more, rfl⟩ := List.exists_cons_of_ne_nil hne
      obtain ⟨rfl, -⟩ := List.cons.inj htext
      obtain ⟨rule, hrule, hwords⟩ := hwins.1
      rw [h.eq_whitespace (List.mem_of_getElem? hrule) hc hwords] at hwords
      exact Grammar.mem_of_whitespace hwords
    obtain ⟨hnext, hpayloads, heffects⟩ := h.fire?_blanks hne hblank hwins hfiring
    rw [hnext, hpayloads] at hlater
    refine ⟨p, q, hne, hblank, htext, fun d hd hdblank => ?_, later, hlater, ?_⟩
    · -- another blank would have made the match longer
      obtain ⟨more, rfl⟩ := List.head?_eq_some_iff.1 hd
      have hlonger : Blank (p ++ [d]) :=
        List.forall_mem_append.2 ⟨hblank, List.forall_mem_singleton.2 hdblank⟩
      obtain ⟨j, hj⟩ := hmatches (List.append_ne_nil_of_left_ne_nil hne [d]) hlonger
      refine hlongest (p ++ [d]) ⟨more, ?_⟩ ?_ j hj
      · rw [List.append_assoc, List.singleton_append, htext]
      · rw [List.length_append, List.length_singleton]
        exact Nat.lt_succ_self _
    · rw [List.flatMap_cons, heffects, List.nil_append]
  | stuck hwhole hnone =>
    obtain ⟨j, hj⟩ := hmatches (List.cons_ne_nil c []) (List.forall_mem_singleton.2 hc)
    exact (hnone [c] ⟨text, rfl⟩ (List.cons_ne_nil c []) j hj).elim

/-- Blanks in front of a text make no difference. -/
theorem BreaksLines.tokenizes_blanks (h : g.BreaksLines l.rules introducer) (hblank : Blank p)
    (hlater : l.Tokenizes g.main payloads (place.advanceBy p) b tokens e) :
    l.Tokenizes g.main payloads place (p ++ b) tokens e := by
  rcases eq_or_ne p [] with rfl | hne
  · exact hlater
  · by_cases hbehind : ∀ c ∈ b.head?, c ∉ [' ', '\r', '\t', '\n']
    · exact h.tokenizes_blanks_of_not hne hblank hbehind hlater
    · obtain ⟨c, hc, hcblank⟩ := not_forall₂.1 hbehind
      obtain ⟨rest, rfl⟩ := List.head?_eq_some_iff.1 hc
      obtain ⟨p', q, hne', hblank', htext, hbehind', hrest⟩ :=
        h.cut_blanks (not_not.1 hcblank) hlater
      rw [← Position.advanceBy_append] at hrest
      rw [← htext, ← List.append_assoc]
      exact h.tokenizes_blanks_of_not (List.append_ne_nil_of_left_ne_nil hne p')
        (List.forall_mem_append.2 ⟨hblank, hblank'⟩) hbehind' hrest

/-! ### A line feed and more text behind a text -/

/-- Where a text lexes, it does so too with a line feed and more text behind it. -/
theorem BreaksLines.tokenizes_append (h : g.BreaksLines l.rules introducer) (hlexes : g.Lexes l)
    {fs : List (Firing Token π)} {e' : Option LexError}
    (hmunches : Munches l.rules l.config.preview s payloads place text fs e') (hend : e' = none)
    (hbelow : ∀ later,
      l.Tokenizes g.main later ((place.advanceBy text).advance '\n') b tokens e) :
    l.Tokenizes s payloads place (text ++ '\n' :: b)
      (Effect.emitted (fs.flatMap (·.effects)) ++ tokens) e := by
  induction hmunches with
  | @finish s payloads place text i firing hwins hfiring =>
    obtain ⟨rfl, rfl⟩ := h.eq_main_of_end hwins.1
    obtain ⟨j, hwins', hfire⟩ := hlexes.ends.wins
    rw [hwins.unique hwins', hfire] at hfiring
    obtain rfl := Option.some.inj hfiring
    have hblank : Blank ['\n'] := List.forall_mem_singleton.2 (by decide)
    have hrest : l.Tokenizes g.main payloads place (['\n'] ++ b) tokens e :=
      h.tokenizes_blanks hblank (hbelow payloads)
    exact hrest
  | @next s payloads place text p q i firing later e' hwhole htext hne hwins hlongest hfiring
      hlater ih =>
    subst htext
    rw [Position.advanceBy_append] at hbelow
    obtain ⟨gs, hgs, htokens⟩ := ih hend hbelow
    have hemitted := Effect.emitted_append (hlexes.closesAtEnd.close_not_mem hwins.1 hfiring)
    rw [List.append_assoc, List.flatMap_cons, hemitted, List.append_assoc]
    by_cases hblank : s = g.main ∧ Blank p
    · obtain ⟨rfl, hblank⟩ := hblank
      obtain ⟨hnext, hpayloads, heffects⟩ := h.fire?_blanks hne hblank hwins hfiring
      rw [hnext, hpayloads] at hgs
      rw [heffects]
      exact h.tokenizes_blanks hblank ⟨gs, hgs, htokens⟩
    · refine ⟨firing :: gs, .next (fun j => h.not_matches_end ?_ j) rfl hne hwins ?_ hfiring hgs,
        ?_⟩
      · exact List.append_ne_nil_of_left_ne_nil hne _
      · exact h.longest_append hne hwins.1 hblank hlongest b
      · rw [List.flatMap_cons, hemitted, htokens]
  | stuck => cases hend

end

end Layers

/-! ### Lexing line by line -/

/-- What a text, a line feed and another text lex to, from the tokens of the one and the result for
the other. -/
def joinLines (a : List Char) (tokens : List Token) :
    Except LexError (List Token) → Except LexError (List Token)
  | .ok more => .ok (tokens ++ more.map (·.below a))
  | .error e => .error (e.below a)

/-- Lexing a text that lexes, a line feed and another text yields the tokens of the first, and then
those of the other or its error, in their places below the first. -/
theorem Layers.BreaksLines.tokenize_append {g : Layers π} {l : Lexer Token π} {introducer : String}
    (h : g.BreaksLines l.rules introducer) (hlexes : g.Lexes l)
    (hshifts : ∀ s, ∀ rule ∈ l.rules.rules s, g.Shifts s rule) {a : List Char}
    {tokens : List Token} (ha : l.tokenize a = .ok tokens) (b : List Char) :
    l.tokenize (a ++ '\n' :: b) = joinLines a tokens (l.tokenize b) := by
  obtain ⟨tokens', e, ⟨fs, hmunches, rfl⟩, hresult⟩ := l.exists_tokenizes hlexes.maxMatch a
  obtain ⟨more, e', ⟨fs', hmunches', rfl⟩, hresult'⟩ := l.exists_tokenizes hlexes.maxMatch b
  rw [ha] at hresult
  cases e with
  | some e => cases hresult
  | none =>
    obtain rfl := Except.ok.inj hresult
    have hbelow : ∀ later, l.Tokenizes g.main later ((Position.start.advanceBy a).advance '\n') b
        ((Effect.emitted (fs'.flatMap (·.effects))).map (·.below a)) (e'.map (·.below a)) := by
      intro later
      have halike : g.Alike a g.main .empty later := alike_main
      rw [← hlexes.main_eq] at hmunches'
      obtain ⟨gs, hgs, heffects⟩ := munches_below hshifts hmunches' a halike
      rw [Position.below_start]
      exact ⟨gs, hgs, by rw [heffects, Effect.below, Effect.emitted_map]⟩
    rw [(h.tokenizes_append hlexes hmunches rfl hbelow).tokenize_eq hlexes.maxMatch, hresult']
    cases e' with
    | none => rfl
    | some e => rfl

def lines (text : String) : List String := (text.toList.splitOn '\n').map String.ofList

/-- A text can be lexed line by line. If what stands before a line feed lexes by itself, its tokens
come first, and what stands behind the line feed is lexed as if it stood alone, further below; and
if all lines lex by themselves, the balance of the text is put together from theirs. -/
structure LineWise (tokenize : String → Except LexError (List Token)) : Prop where
  append : ∀ {a b : String} {tokens : List Token}, tokenize a = .ok tokens →
    tokenize (a ++ "\n" ++ b) = joinLines a.toList tokens (tokenize b)
  balance : ∀ {text : String} {parts : List (List Token)}, (lines text).mapM tokenize = .ok parts →
    ∃ tokens, tokenize text = .ok tokens ∧
      Balance.ofTokens tokens = Balance.sum (parts.map Balance.ofTokens)

section

variable {tokenize : String → Except LexError (List Token)}

theorem Balance.ofTokens_below (tokens : List Token) (text : List Char) :
    ofTokens (tokens.map (·.below text)) = ofTokens tokens := by
  rw [ofTokens, List.map_map]
  rfl

theorem balance_intercalate (happend : ∀ {a b : String} {tokens : List Token},
      tokenize a = .ok tokens →
        tokenize (a ++ "\n" ++ b) = joinLines a.toList tokens (tokenize b))
    {pieces : List String} (hne : pieces ≠ []) {parts : List (List Token)}
    (h : pieces.mapM tokenize = .ok parts) :
    ∃ tokens, tokenize ("\n".intercalate pieces) = .ok tokens ∧
      Balance.ofTokens tokens = Balance.sum (parts.map Balance.ofTokens) := by
  induction pieces generalizing parts with
  | nil => exact (hne rfl).elim
  | cons piece rest ih =>
    rw [List.mapM_cons] at h
    cases hpiece : tokenize piece with
    | error e =>
      rw [hpiece] at h
      cases h
    | ok tokens =>
      rw [hpiece] at h
      cases hrest : rest.mapM tokenize with
      | error e =>
        rw [hrest] at h
        cases h
      | ok later =>
        rw [hrest] at h
        obtain rfl := Except.ok.inj h
        rw [List.map_cons, Balance.sum_cons]
        rcases eq_or_ne rest [] with rfl | hrest_ne
        · obtain rfl := Except.ok.inj hrest
          rw [String.intercalate_singleton]
          exact ⟨tokens, hpiece, (Balance.combine_empty _).symm⟩
        · obtain ⟨more, hmore, hbalance⟩ := ih hrest_ne hrest
          refine ⟨tokens ++ more.map (·.below piece.toList), ?_, ?_⟩
          · rw [String.intercalate_cons_of_ne_nil hrest_ne, happend hpiece, hmore]
            rfl
          · rw [Balance.ofTokens_append, Balance.ofTokens_below, hbalance]

theorem intercalate_lines (text : String) : "\n".intercalate (lines text) = text := by
  rw [← String.toList_inj, String.toList_intercalate, lines, List.map_map]
  have hpieces : (String.toList ∘ String.ofList) = id := funext fun _ => String.toList_ofList
  rw [hpieces, List.map_id]
  exact List.intercalate_splitOn '\n'

theorem lineWise_of_append (happend : ∀ {a b : String} {tokens : List Token},
      tokenize a = .ok tokens →
        tokenize (a ++ "\n" ++ b) = joinLines a.toList tokens (tokenize b)) :
    LineWise tokenize where
  append := happend
  balance := by
    intro text parts h
    have hne : lines text ≠ [] :=
      fun hnil => List.splitOn_ne_nil '\n' text.toList (List.map_eq_nil_iff.1 hnil)
    have hjoined := balance_intercalate happend hne h
    rwa [intercalate_lines] at hjoined

end

theorem Layers.BreaksLines.lineWise {g : Layers π} {l : Lexer Token π} {introducer : String}
    (h : g.BreaksLines l.rules introducer) (hlexes : g.Lexes l)
    (hshifts : ∀ s, ∀ rule ∈ l.rules.rules s, g.Shifts s rule)
    {tokenize : String → Except LexError (List Token)}
    (hruns : ∀ source : String, tokenize source = l.tokenize source.toList) :
    LineWise tokenize := by
  refine lineWise_of_append fun {a b tokens} ha => ?_
  have hjoined : (a ++ "\n" ++ b).toList = a.toList ++ '\n' :: b.toList := by
    rw [String.toList_append, String.toList_append, List.append_assoc]
    rfl
  rw [hruns] at ha
  rw [hruns, hjoined, h.tokenize_append hlexes hshifts ha, hruns b]

/-! ### The grammars -/

theorem KLisp.breaksLines : layers.BreaksLines rules "\\" where
  blanks := ⟨(rules.rules ⟨0⟩).take 6, (rules.rules ⟨0⟩).drop 7, rfl, by decide +kernel⟩
  readsEnd := by
    rintro ⟨_ | _ | n⟩
    · decide +kernel
    · decide +kernel
    · exact fun _ h => nomatch h
  lineFeed := by
    rintro ⟨_ | _ | n⟩
    · decide +kernel
    · decide +kernel
    · exact fun _ h => nomatch h
  introducer := by decide +kernel

theorem Scheme.breaksLines : layers.BreaksLines rules "#\\" where
  blanks := ⟨(rules.rules ⟨0⟩).take 17, (rules.rules ⟨0⟩).drop 18, rfl, by decide +kernel⟩
  readsEnd := by
    rintro ⟨_ | _ | _ | n⟩
    · decide +kernel
    · decide +kernel
    · decide +kernel
    · exact fun _ h => nomatch h
  lineFeed := by
    rintro ⟨_ | _ | _ | n⟩
    · decide +kernel
    · decide +kernel
    · decide +kernel
    · exact fun _ h => nomatch h
  introducer := by decide +kernel

namespace Grammar

/-- With both grammars a text can be lexed line by line. -/
theorem lexing_line_wise : LineWise KLisp.tokenize ∧ LineWise Scheme.tokenize :=
  ⟨KLisp.breaksLines.lineWise KLisp.lexes KLisp.shifts KLisp.tokenize_eq,
    Scheme.breaksLines.lineWise Scheme.lexes Scheme.shifts Scheme.tokenize_eq⟩

/-- A number that could go on, blanks on both sides of the line feed and an error behind it; and
brackets that are closed in a later line. -/
theorem lexing_line_wise_sample :
    KLisp.tokenize "1e \n  \\" = .error (.deadEnd ⟨6, 2, 3⟩ "\\") ∧
    ∃ tokens, Scheme.tokenize "(a\n(\n))" = .ok tokens ∧
      Balance.ofTokens tokens = Balance.sum [⟨0, 1⟩, ⟨0, 1⟩, ⟨2, 0⟩] := by
  constructor
  · have hfirst : KLisp.tokenize "1e " = .ok [⟨.integer 1, "1", ⟨0, 1, 1⟩, ⟨1, 1, 2⟩⟩,
        ⟨.symbol "e", "e", ⟨1, 1, 2⟩, ⟨2, 1, 3⟩⟩] := by decide +kernel
    have hsecond : KLisp.tokenize "  \\" = .error (.deadEnd ⟨2, 1, 3⟩ "\\") := by decide +kernel
    have hjoined : "1e \n  \\" = "1e " ++ "\n" ++ "  \\" := by decide +kernel
    rw [hjoined, lexing_line_wise.1.append hfirst, hsecond]
    decide +kernel
  · have hparts : (lines "(a\n(\n))").mapM Scheme.tokenize =
        .ok [[⟨.opening "(", "(", ⟨0, 1, 1⟩, ⟨1, 1, 2⟩⟩, ⟨.symbol "a", "a", ⟨1, 1, 2⟩, ⟨2, 1, 3⟩⟩],
          [⟨.opening "(", "(", ⟨0, 1, 1⟩, ⟨1, 1, 2⟩⟩],
          [⟨.closing ")", ")", ⟨0, 1, 1⟩, ⟨1, 1, 2⟩⟩,
            ⟨.closing ")", ")", ⟨1, 1, 2⟩, ⟨2, 1, 3⟩⟩]] := by
      decide +kernel
    exact lexing_line_wise.2.balance hparts

end Grammar

end DerivativeLexer
