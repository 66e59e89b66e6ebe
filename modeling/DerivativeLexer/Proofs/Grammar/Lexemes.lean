import DerivativeLexer.Proofs.Grammar.Blocks
import DerivativeLexer.Proofs.Grammar.Lines
import DerivativeLexer.Proofs.Grammar.Strings

/-! # Lexemes

A lexeme is a text that a rule between tokens wins and turns into one token, of a kind that depends
on the text alone, or a string literal. Lexemes are cut out of a text where they stand next to
others, but they do not need their neighbours: with a space behind it, or with nothing, a lexeme is
lexed to the same token. Only blanks, comments and character literals can have a match that goes on
over a space. -/

namespace DerivativeLexer

open DerivativeLexer.Language

variable {τ π : Type}

/-- Of the rules of a state, only this one has matches that begin with the character. -/
def RuleTable.OnlyFrom (t : RuleTable τ π) (s : StateId) (c : Char) (rule : Rule τ π) : Prop :=
  ∃ before after, t.rules s = before ++ rule :: after ∧
    ∀ other ∈ before ++ after, (other.pattern.derive (.char c)).rejectsAll = true

theorem RuleTable.OnlyFrom.eq {t : RuleTable τ π} {s : StateId} {c : Char} {rule other : Rule τ π}
    (h : t.OnlyFrom s c rule) (hother : other ∈ t.rules s) {w : List Symbol}
    (hwords : .char c :: w ∈ other.pattern.words) : other = rule := by
  obtain ⟨before, after, hrules, hothers⟩ := h
  by_contra hne
  have hmem : other ∈ before ++ after := by
    rw [hrules] at hother
    rcases List.mem_append.1 hother with hmem | hmem
    · exact List.mem_append_left _ hmem
    · exact List.mem_append_right _ ((List.mem_cons.1 hmem).resolve_left hne)
  exact (Language.rejectsAll_deriveWord_iff other.pattern [.char c]).1 (hothers other hmem) w hwords

/-- When the rule fires on the text, it emits one token for it, of this kind, and nothing else
happens. -/
def RuleTable.Yields (t : RuleTable Token π) (s : StateId) (i : Nat) (p : List Char)
    (kind : TokenKind) : Prop :=
  ∀ span payloads, t.fire? s i ⟨p, span⟩ payloads =
    some ⟨s, i, ⟨p, span⟩, [.emit ⟨kind, String.ofList p, span⟩], payloads, s⟩

theorem RuleTable.Yields.not_silent {t : RuleTable Token π} {s : StateId} {i : Nat} {p : List Char}
    {kind : TokenKind} {pattern : Language} (h : t.Yields s i p kind) :
    (t.rules s)[i]? ≠ some ⟨pattern, pure s⟩ := by
  intro hrule
  have hfiring := h ⟨.start, .start⟩ .empty
  rw [fire?, hrule] at hfiring
  cases hfiring

namespace Layers

/-- A text that makes a token by itself, and the kind of that token. -/
inductive Lexeme (g : Layers π) (t : RuleTable Token π) : List Char → TokenKind → Prop
  | matched {p : List Char} {i : Nat} {kind : TokenKind} (hne : p ≠ [])
      (hwins : t.Wins g.main (symbols p) i) (hyields : t.Yields g.main i p kind) : Lexeme g t p kind
  | string {text : List Char} {lit : ScannedString} (hscan : scanString text = some lit) :
      Lexeme g t ('"' :: lit.body) (.string (String.ofList lit.value))

/-- In a grammar a space is read between tokens only as a blank, in a comment, or behind the
introducer of a character literal; and what begins with a semicolon is a comment. -/
structure EndsAtSpaces (g : Layers π) (l : Lexer Token π) (lead : String) : Prop
    extends Lexes g l, BreaksLines g l.rules lead, Quotes g l.rules where
  spaces : ∀ rule ∈ l.rules.rules g.main, rule.pattern.reads (.char ' ') = true →
    rule.pattern = Grammar.whitespace ∨ rule.pattern = Grammar.comment ∨
      rule.pattern = (lit lead).followedBy anyChar
  noSpace : ' ' ∉ lead.toList
  comments : l.rules.OnlyFrom g.main ';' ⟨Grammar.comment, pure g.main⟩

variable {g : Layers π} {l : Lexer Token π} {introducer : String} {p q r : List Char}
  {kind : TokenKind} {i j : Nat}

/-- A match that goes on over a space has something before it that yields no token. -/
theorem EndsAtSpaces.before_space (h : g.EndsAtSpaces l introducer)
    (hmatches : l.rules.Matches g.main (symbols (p ++ ' ' :: r)) j) :
    Blank p ∨ (∃ body, p = ';' :: body) ∨ p = [] ∨ p = introducer.toList := by
  obtain ⟨rule, hrule, hwords⟩ := hmatches
  have hreads : rule.pattern.reads (.char ' ') = true := by
    by_contra hreads
    refine Language.notMem_of_reads (Bool.eq_false_iff.2 hreads) hwords ?_
    exact List.mem_map_of_mem (List.mem_append_right _ List.mem_cons_self)
  rcases h.spaces rule (List.mem_of_getElem? hrule) hreads with hblank | hcomment | hchar
  · rw [hblank] at hwords
    exact .inl (List.forall_mem_append.1 (Grammar.mem_of_whitespace hwords)).1
  · rw [hcomment] at hwords
    obtain ⟨body, hbody, -⟩ := Grammar.symbols_mem_comment.1 hwords
    cases p with
    | nil => exact .inr (.inr (.inl rfl))
    | cons c rest =>
      obtain ⟨rfl, -⟩ := List.cons.inj hbody
      exact .inr (.inl ⟨rest, rfl⟩)
  · rw [hchar] at hwords
    exact .inr (.inr (.inr (eq_of_symbols_mem_lit_anyChar hwords h.noSpace)))

/-! ### A space behind a lexeme -/

section

variable {payloads : Payloads π} {place : Position}

/-- A lexeme does not begin with a blank. -/
theorem BreaksLines.head_lexeme (h : g.BreaksLines l.rules introducer)
    (hlexeme : g.Lexeme l.rules p kind) :
    ∃ c rest, p = c :: rest ∧ c ∉ [' ', '\r', '\t', '\n'] := by
  cases hlexeme with
  | matched hne hwins hyields =>
    obtain ⟨c, rest, rfl⟩ := List.exists_cons_of_ne_nil hne
    refine ⟨c, rest, rfl, fun hc => ?_⟩
    obtain ⟨rule, hrule, hwords⟩ := hwins.1
    obtain rfl := h.eq_whitespace (List.mem_of_getElem? hrule) hc hwords
    exact hyields.not_silent hrule
  | string => exact ⟨'"', _, rfl, by decide⟩

/-- A match that yields a token is no blank and no comment. -/
theorem EndsAtSpaces.not_silent (h : g.EndsAtSpaces l introducer) (hne : p ≠ [])
    (hwins : l.rules.Wins g.main (symbols p) i) (hyields : l.rules.Yields g.main i p kind) :
    ¬Blank p ∧ ∀ body, p ≠ ';' :: body := by
  constructor
  · intro hblank
    obtain ⟨c, rest, rfl, hc⟩ := h.head_lexeme (.matched hne hwins hyields)
    exact hc (hblank c List.mem_cons_self)
  · rintro body rfl
    obtain ⟨rule, hrule, hwords⟩ := hwins.1
    obtain rfl := h.comments.eq (List.mem_of_getElem? hrule) hwords
    exact hyields.not_silent hrule

/-- With a space behind it such a match is not longer. -/
theorem EndsAtSpaces.nothingBeyond (h : g.EndsAtSpaces l introducer) (hne : p ≠ [])
    (hmatches : l.rules.Matches g.main (symbols p) i) (hblank : ¬Blank p)
    (hcomment : ∀ body, p ≠ ';' :: body) (hbehind : ∀ c ∈ q.head?, c = ' ') :
    l.rules.NothingBeyond g.main (p ++ q) p.length where
  beginning := by
    intro s hs hlt j hlonger
    obtain ⟨c, r, rest, rfl, rfl⟩ := exists_of_longer_prefix hs hlt
    obtain rfl := hbehind c rfl
    rcases h.before_space hlonger with hspace | ⟨body, hbody⟩ | hnil | hchar
    · exact hblank hspace
    · exact hcomment body hbody
    · exact hne hnil
    · exact h.not_matches_introducer (hchar ▸ List.prefix_refl _) hne i hmatches
  whole := h.not_matches_end (List.append_ne_nil_of_left_ne_nil hne q)

/-- A lexeme with a space or nothing behind it is lexed to its token. -/
theorem EndsAtSpaces.leads_lexeme (h : g.EndsAtSpaces l introducer)
    (hlexeme : g.Lexeme l.rules p kind) (hbehind : ∀ c ∈ q.head?, c = ' ') (payloads : Payloads π)
    (place : Position) :
    ∃ later, l.Leads ⟨g.main, payloads, place, p ++ q⟩
      [.emit ⟨kind, String.ofList p, ⟨place, place.advanceBy p⟩⟩]
      ⟨g.main, later, place.advanceBy p, q⟩ := by
  cases hlexeme with
  | matched hne hwins hyields =>
    obtain ⟨hblank, hcomment⟩ := h.not_silent hne hwins hyields
    have hbeyond := h.nothingBeyond hne hwins.1 hblank hcomment hbehind
    exact ⟨_, fun _ hbefore => hbefore.wins h.maxMatch hne hwins hbeyond (hyields _ payloads)⟩
  | @string text lit hscan =>
    obtain ⟨opened, hopen, hread⟩ := h.leads_open h.maxMatch payloads place (lit.body ++ q)
    have hreads := h.reads h.maxMatch (lit.body ++ q)
    rw [scanString_body_append hscan] at hreads
    obtain ⟨later, hleads⟩ := hreads opened (place.advanceBy ['"'])
    rw [hread] at hleads
    exact ⟨later, hopen.trans hleads⟩

/-- Blanks that no other blank follows yield nothing. -/
theorem BreaksLines.leads_blanks (h : g.BreaksLines l.rules introducer)
    (hmax : l.config.maxMatch = none) (hne : p ≠ []) (hblank : Blank p)
    (hbehind : ∀ c ∈ q.head?, c ∉ [' ', '\r', '\t', '\n']) (payloads : Payloads π)
    (place : Position) :
    l.Leads ⟨g.main, payloads, place, p ++ q⟩ [] ⟨g.main, payloads, place.advanceBy p, q⟩ := by
  have hperform : (pure g.main : Act Token π StateId).perform
      ⟨p, ⟨place, place.advanceBy p⟩⟩ payloads = (g.main, ⟨[], payloads⟩) := rfl
  exact Lexer.leads_of_first hmax hne (h.first_blanks hne hblank)
    (h.nothingBeyond_blanks hne hblank hbehind) hperform

/-- A text that is one lexeme has one token. -/
theorem EndsAtSpaces.tokenize_lexeme (h : g.EndsAtSpaces l introducer)
    (hlexeme : g.Lexeme l.rules p kind) :
    l.tokenize p = .ok [⟨kind, String.ofList p, ⟨.start, Position.start.advanceBy p⟩⟩] := by
  have hbehind : ∀ c ∈ ([] : List Char).head?, c = ' ' := fun _ hc => nomatch hc
  obtain ⟨later, hleads⟩ := h.leads_lexeme hlexeme hbehind .empty .start
  rw [List.append_nil] at hleads
  have hbegins := Lexer.Begins.start l p
  rw [← h.main_eq] at hbegins
  have hend := hbegins.leads h.closesAtEnd hleads
  exact h.tokenize_eq hend (Position.drop_advanceBy (List.append_nil p).symm)

end

end Layers

/-! ### The grammars -/

theorem KLisp.endsAtSpaces : layers.EndsAtSpaces standard "\\" where
  toLexes := lexes
  toBreaksLines := breaksLines
  toQuotes := quotes
  spaces := by decide +kernel
  noSpace := by decide +kernel
  comments := ⟨(rules.rules ⟨0⟩).take 7, (rules.rules ⟨0⟩).drop 8, rfl, by decide +kernel⟩

theorem Scheme.endsAtSpaces : layers.EndsAtSpaces standard "#\\" where
  toLexes := lexes
  toBreaksLines := breaksLines
  toQuotes := quotes
  spaces := by decide +kernel
  noSpace := by decide +kernel
  comments := ⟨(rules.rules ⟨0⟩).take 18, (rules.rules ⟨0⟩).drop 19, rfl, by decide +kernel⟩

end DerivativeLexer
