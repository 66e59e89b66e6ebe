import DerivativeLexer.Proofs.Grammar.DeadEnds
import DerivativeLexer.Proofs.Grammar.Lexemes

/-! # The texts of the tokens, with spaces between them

Every token of a text that lexes is the token of a lexeme. So if the texts of the tokens are joined
with single spaces, without the comments and blanks that stood between them, lexing yields the same
tokens again, only in other places. -/

namespace DerivativeLexer

open DerivativeLexer.Language

variable {τ π : Type}

theorem Effect.emitted_map_emit (items : List τ) : emitted (items.map .emit) = items := by
  induction items with
  | nil => rfl
  | cons item later ih => exact congrArg (item :: ·) ih

/-- A token without its place. -/
def Token.content (t : Token) : TokenKind × String := (t.kind, t.lexeme)

namespace Layers

variable {g : Layers π} {t : RuleTable Token π} {l : Lexer Token π} {introducer : String}
  {p q : List Char} {i : Nat} {rule : Rule Token π} {source : List Char} {payloads : Payloads π}
  {place : Position} {items tokens : List Token}

/-! ### Rules that emit their match -/

/-- On a match of its pattern the rule emits one token for it, of a kind that depends on the text
alone, or nothing, and lexing stays between tokens. -/
def Tells (g : Layers π) (rule : Rule Token π) : Prop :=
  ∃ kind? : List Char → Option TokenKind, ∀ m payloads, symbols m.text ∈ rule.pattern.words →
    rule.action.perform m payloads = (g.main,
      ⟨(kind? m.text).toList.map fun kind => .emit ⟨kind, String.ofList m.text, m.span⟩, payloads⟩)

theorem tells_silent {pattern : Language} : g.Tells ⟨pattern, pure g.main⟩ :=
  ⟨fun _ => none, fun _ _ _ => rfl⟩

theorem tells_end : g.Tells ⟨.endOfInput, do Act.close; pure g.main⟩ := by
  refine ⟨fun _ => none, fun m _ hwords => ?_⟩
  have hend : symbols m.text = [.endMark] := hwords
  cases htext : m.text with
  | nil =>
    rw [htext] at hend
    cases hend
  | cons c rest =>
    rw [htext] at hend
    cases hend

theorem tells_emitMatch {pattern : Language} (kind : List Char → TokenKind) :
    g.Tells ⟨pattern, do Grammar.emitMatch kind; pure g.main⟩ :=
  ⟨fun text => some (kind text), fun _ _ _ => rfl⟩

theorem tells_emitToken (kind : TokenKind) (lexeme : String) :
    g.Tells ⟨lit lexeme, do Grammar.emitToken kind lexeme; pure g.main⟩ := by
  refine ⟨fun _ => some kind, fun m payloads hwords => ?_⟩
  rw [symbols_mem_lit.1 hwords, String.ofList_toList]
  rfl

theorem tells_emitChar {pattern : Language} (lead : Nat) :
    g.Tells ⟨pattern, do Grammar.emitChar lead; pure g.main⟩ := by
  refine ⟨fun text => text[lead]?.map .char, fun m payloads _ => ?_⟩
  have hstay : (do Grammar.emitChar lead; pure g.main : Act Token π StateId).perform m payloads =
      (g.main, ((Grammar.emitChar lead).perform m payloads).2) := rfl
  rw [hstay, Grammar.emitChar, Act.perform_text_bind]
  beta_reduce
  cases m.text[lead]? with
  | none => rfl
  | some c => rfl

theorem Tells.fire? (h : g.Tells rule) (hrule : (t.rules g.main)[i]? = some rule)
    (hwords : symbols p ∈ rule.pattern.words) :
    ∃ kind? : Option TokenKind, ∀ span payloads, t.fire? g.main i ⟨p, span⟩ payloads =
      some ⟨g.main, i, ⟨p, span⟩,
        kind?.toList.map fun kind => .emit ⟨kind, String.ofList p, span⟩, payloads, g.main⟩ := by
  obtain ⟨kind?, hperform⟩ := h
  refine ⟨kind? p, fun span payloads => ?_⟩
  rw [RuleTable.fire?, hrule, Option.map_some, hperform ⟨p, span⟩ payloads hwords]

/-! ### Tokens of lexemes -/

def Lexemes (g : Layers π) (t : RuleTable Token π) (tokens : List Token) : Prop :=
  ∀ token ∈ tokens, g.Lexeme t token.lexeme.toList token.kind

theorem Lexemes.concat (h : g.Lexemes t items) {kind : TokenKind} (hlexeme : g.Lexeme t p kind)
    (span : Span) : g.Lexemes t (items ++ [⟨kind, String.ofList p, span⟩]) := by
  refine List.forall_mem_append.2 ⟨h, List.forall_mem_singleton.2 ?_⟩
  rw [String.toList_ofList]
  exact hlexeme

/-- Wherever the rule matches between two tokens of a text that lexes, lexing goes on between
tokens further behind, and what is emitted on the way are tokens of lexemes. -/
def Writes (g : Layers π) (l : Lexer Token π) (rule : Rule Token π) : Prop :=
  g.Tells rule ∨
    ∀ {source : List Char} {tokens : List Token} {payloads : Payloads π} {place : Position}
        {items : List Token} {p q : List Char}, l.tokenize source = .ok tokens →
      l.Begins source g.main payloads place items → source.drop place.offset = p ++ q →
        symbols p ∈ rule.pattern.words → g.Lexemes l.rules items →
          ∃ later place' items', l.Begins source g.main later place' items' ∧
            place.offset < place'.offset ∧ g.Lexemes l.rules items'

theorem Quotes.writes (h : g.Quotes l.rules) (hlexes : g.Lexes l)
    (action : Act Token π StateId) : g.Writes l ⟨lit "\"", action⟩ := by
  refine .inr fun {source tokens payloads place items p q} htokens hbegins htext hwords hitems => ?_
  obtain rfl : p = ['"'] := symbols_mem_lit.1 hwords
  cases hscan : scanString q with
  | none =>
    rw [h.tokenize_of_unclosed hlexes hbegins htext hscan] at htokens
    cases htokens
  | some lit =>
    obtain ⟨later, hbegins', -⟩ := h.begins_behind hlexes hbegins htext hscan
    refine ⟨_, _, _, hbegins', ?_, hitems.concat (.string hscan) _⟩
    rw [Position.offset_advanceBy, List.length_cons]
    omega

/-- Behind a match of such a rule lexing goes on between tokens, and what is emitted on the way are
tokens of lexemes. -/
theorem Writes.begins (h : g.Writes l rule) (hlexes : g.Lexes l)
    (htokens : l.tokenize source = .ok tokens)
    (hbegins : l.Begins source g.main payloads place items)
    (htext : source.drop place.offset = p ++ q) (hne : p ≠ [])
    (hrule : (l.rules.rules g.main)[i]? = some rule)
    (hwins : l.rules.Wins g.main (symbols p) i)
    (hbeyond : l.rules.NothingBeyond g.main (p ++ q) p.length) (hitems : g.Lexemes l.rules items) :
    ∃ later place' items', l.Begins source g.main later place' items' ∧
      place.offset < place'.offset ∧ g.Lexemes l.rules items' := by
  have hlength := List.length_pos_of_ne_nil hne
  obtain ⟨rule', hrule', hwords⟩ := hwins.1
  rw [hrule] at hrule'
  obtain rfl := Option.some.inj hrule'
  rcases h with htells | hopens
  · obtain ⟨kind?, hfire⟩ := htells.fire? hrule hwords
    have hleads : l.Leads ⟨g.main, payloads, place, p ++ q⟩ _ _ :=
      fun _ hbefore => hbefore.wins hlexes.maxMatch hne hwins hbeyond (hfire _ payloads)
    have hbegins' := hbegins.leads hlexes.closesAtEnd (htext ▸ hleads)
    refine ⟨_, _, _, hbegins', ?_, ?_⟩
    · rw [Position.offset_advanceBy]
      omega
    · cases kind? with
      | none =>
        have hsame : items ++ Effect.emitted [] = items := List.append_nil items
        exact hsame.symm ▸ hitems
      | some kind => exact hitems.concat (.matched hne hwins hfire) _
  · exact hopens htokens hbegins htext hwords hitems

/-- Lexing is followed from match to match between two tokens. -/
theorem BreaksLines.lexemes_of_begins (h : g.BreaksLines l.rules introducer) (hlexes : g.Lexes l)
    (hwrites : ∀ rule ∈ l.rules.rules g.main, g.Writes l rule)
    (htokens : l.tokenize source = .ok tokens)
    (hbegins : l.Begins source g.main payloads place items) (hitems : g.Lexemes l.rules items) :
    g.Lexemes l.rules tokens := by
  -- a string literal is many matches in another state: what gets less is the rest of the text
  induction hleft : source.length - place.offset using Nat.strong_induction_on
    generalizing payloads place items with
  | _ left ih =>
    obtain ⟨fs, e, hmunches, hstatus, -⟩ := hbegins.munches hlexes.maxMatch
    generalize htext : source.drop place.offset = text at hmunches
    cases hmunches with
    | finish hwins =>
      obtain ⟨-, rfl⟩ := h.eq_main_of_end hwins.1
      rw [hlexes.tokenize_eq hbegins htext] at htokens
      obtain rfl := Except.ok.inj htokens
      exact hitems
    | stuck =>
      rw [Lexer.tokenize, hstatus] at htokens
      cases htokens
    | @next _ _ _ _ p q i firing more error hwhole hsplit hne hwins hlongest hfiring hlater =>
      subst hsplit
      obtain ⟨rule, hrule, -⟩ := hwins.1
      obtain ⟨later, place', items', hbegins', hlt, hitems'⟩ :=
        (hwrites rule (List.mem_of_getElem? hrule)).begins hlexes htokens hbegins htext hne hrule
          hwins ⟨hlongest, hwhole⟩ hitems
      refine ih _ ?_ hbegins' hitems' rfl
      have hlength := congrArg List.length htext
      rw [List.length_drop, List.length_append] at hlength
      have hpos := List.length_pos_of_ne_nil hne
      omega

/-! ### Spaces between lexemes -/

/-- The texts of the tokens with a space between any two. -/
def spaced (tokens : List Token) : List Char :=
  [' '].intercalate (tokens.map fun token => token.lexeme.toList)

theorem exists_spaced_cons (token : Token) (rest : List Token) :
    ∃ behind, spaced (token :: rest) = token.lexeme.toList ++ behind ∧
      (rest = [] ∧ behind = [] ∨ rest ≠ [] ∧ behind = [' '] ++ spaced rest) := by
  cases rest with
  | nil => exact ⟨[], List.intercalate_singleton.trans (List.append_nil _).symm, .inl ⟨rfl, rfl⟩⟩
  | cons next others =>
    refine ⟨_, ?_, .inr ⟨List.cons_ne_nil _ _, rfl⟩⟩
    rw [← List.append_assoc]
    exact List.intercalate_cons_cons

theorem BreaksLines.head?_spaced (h : g.BreaksLines l.rules introducer)
    (hlexemes : g.Lexemes l.rules tokens) :
    ∀ c ∈ (spaced tokens).head?, c ∉ [' ', '\r', '\t', '\n'] := by
  cases tokens with
  | nil => exact fun _ hc => nomatch hc
  | cons token rest =>
    obtain ⟨behind, hspaced, -⟩ := exists_spaced_cons token rest
    obtain ⟨d, more, htext, hd⟩ := h.head_lexeme (hlexemes token List.mem_cons_self)
    intro c hc
    rw [hspaced, htext] at hc
    exact Option.some.inj hc ▸ hd

/-- The texts of lexemes with spaces between them are lexed to their tokens. -/
theorem EndsAtSpaces.leads_spaced (h : g.EndsAtSpaces l introducer)
    (hlexemes : g.Lexemes l.rules tokens) (payloads : Payloads π) (place : Position) :
    ∃ (again : List Token) (later : Payloads π),
      l.Leads ⟨g.main, payloads, place, spaced tokens⟩ (again.map .emit)
        ⟨g.main, later, place.advanceBy (spaced tokens), []⟩ ∧
      again.map Token.content = tokens.map Token.content := by
  induction tokens generalizing payloads place with
  | nil => exact ⟨[], payloads, .refl _, rfl⟩
  | cons token rest ih =>
    obtain ⟨hlexeme, hrest⟩ := List.forall_mem_cons.1 hlexemes
    obtain ⟨behind, hspaced, hcase⟩ := exists_spaced_cons token rest
    have hbehind : ∀ c ∈ behind.head?, c = ' ' := by
      rcases hcase with ⟨-, rfl⟩ | ⟨-, rfl⟩
      · exact fun _ hc => nomatch hc
      · exact fun _ hc => (Option.some.inj hc).symm
    obtain ⟨between, htoken⟩ := h.leads_lexeme hlexeme hbehind payloads place
    obtain ⟨again, later, hagain, hsame⟩ : ∃ (again : List Token) (later : Payloads π),
        l.Leads ⟨g.main, between, place.advanceBy token.lexeme.toList, behind⟩ (again.map .emit)
          ⟨g.main, later, (place.advanceBy token.lexeme.toList).advanceBy behind, []⟩ ∧
        again.map Token.content = rest.map Token.content := by
      rcases hcase with ⟨rfl, rfl⟩ | ⟨-, rfl⟩
      · exact ⟨[], between, .refl _, rfl⟩
      · have hspace := h.leads_blanks h.maxMatch (List.cons_ne_nil _ _)
          (List.forall_mem_singleton.2 List.mem_cons_self) (h.head?_spaced hrest) between
          (place.advanceBy token.lexeme.toList)
        obtain ⟨again, later, hagain, hsame⟩ := ih hrest between
          ((place.advanceBy token.lexeme.toList).advanceBy [' '])
        refine ⟨again, later, ?_, hsame⟩
        rw [Position.advanceBy_append]
        exact hspace.trans hagain
    let moved : Token := { token with span := ⟨place, place.advanceBy token.lexeme.toList⟩ }
    refine ⟨moved :: again, later, ?_, congrArg (token.content :: ·) hsame⟩
    rw [String.ofList_toList] at htoken
    rw [hspaced, Position.advanceBy_append]
    exact htoken.trans hagain

theorem EndsAtSpaces.tokenize_spaced (h : g.EndsAtSpaces l introducer)
    (hlexemes : g.Lexemes l.rules tokens) :
    ∃ again, l.tokenize (spaced tokens) = .ok again ∧
      again.map Token.content = tokens.map Token.content := by
  obtain ⟨again, later, hleads, hsame⟩ := h.leads_spaced hlexemes .empty .start
  have hbegins := Lexer.Begins.start l (spaced tokens)
  rw [← h.main_eq] at hbegins
  have hend := hbegins.leads h.closesAtEnd hleads
  rw [Effect.emitted_map_emit, List.nil_append] at hend
  exact ⟨again, h.tokenize_eq hend (Position.drop_advanceBy (List.append_nil _).symm), hsame⟩

end Layers

/-! ### The grammars -/

/-- A text that lexes has the same tokens, in other places, as their texts with single spaces
between them. -/
def Respaces (tokenize : String → Except LexError (List Token)) : Prop :=
  ∀ {source : String} {tokens : List Token}, tokenize source = .ok tokens →
    ∃ again, tokenize (" ".intercalate (tokens.map (·.lexeme))) = .ok again ∧
      again.map (·.kind) = tokens.map (·.kind) ∧ again.map (·.lexeme) = tokens.map (·.lexeme)

theorem Layers.EndsAtSpaces.respaces {g : Layers π} {l : Lexer Token π} {introducer : String}
    (h : g.EndsAtSpaces l introducer) (hwrites : ∀ rule ∈ l.rules.rules g.main, g.Writes l rule)
    {tokenize : String → Except LexError (List Token)}
    (hruns : ∀ source : String, tokenize source = l.tokenize source.toList) :
    Respaces tokenize := by
  intro source tokens htokens
  rw [hruns] at htokens
  have hstart := Lexer.Begins.start l source.toList
  rw [← h.main_eq] at hstart
  have hlexemes := h.lexemes_of_begins h.toLexes hwrites htokens hstart (List.forall_mem_nil _)
  obtain ⟨again, hagain, hsame⟩ := h.tokenize_spaced hlexemes
  have htext : (" ".intercalate (tokens.map (·.lexeme))).toList = spaced tokens := by
    rw [String.toList_intercalate, List.map_map]
    rfl
  refine ⟨again, ?_, ?_, ?_⟩
  · rw [hruns, htext, hagain]
  · have hkinds := congrArg (List.map Prod.fst) hsame
    rwa [List.map_map, List.map_map] at hkinds
  · have htexts := congrArg (List.map Prod.snd) hsame
    rwa [List.map_map, List.map_map] at htexts

open Layers

theorem KLisp.writes : ∀ rule ∈ rules.rules layers.main, layers.Writes standard rule := by
  refine List.forall_mem_cons.2 ⟨quotes.writes lexes _, ?_⟩
  iterate 4 refine List.forall_mem_cons.2 ⟨.inl (tells_emitToken _ _), ?_⟩
  refine List.forall_mem_cons.2 ⟨.inl tells_end, ?_⟩
  iterate 2 refine List.forall_mem_cons.2 ⟨.inl tells_silent, ?_⟩
  iterate 4 refine List.forall_mem_cons.2 ⟨.inl (tells_emitMatch _), ?_⟩
  exact List.forall_mem_singleton.2 (.inl (tells_emitChar 1))

namespace Scheme

theorem writes_enter (action : Act Token Payload StateId) :
    layers.Writes standard ⟨lit "#!", action⟩ := by
  refine .inr fun {source tokens payloads place items p q} htokens hbegins htext hwords hitems => ?_
  obtain rfl : p = ['#', '!'] := symbols_mem_lit.1 hwords
  cases hscan : scanBlock 1 q with
  | none =>
    rw [tokenize_of_unclosed_block hbegins htext hscan] at htokens
    cases htokens
  | some block =>
    obtain ⟨later, hbegins', -⟩ := begins_behind_block hbegins htext hscan
    refine ⟨_, _, _, hbegins', ?_, hitems⟩
    rw [Position.offset_advanceBy, List.length_cons]
    omega

theorem writes : ∀ rule ∈ rules.rules layers.main, layers.Writes standard rule := by
  refine List.forall_mem_cons.2 ⟨writes_enter _, ?_⟩
  refine List.forall_mem_cons.2 ⟨quotes.writes lexes _, ?_⟩
  -- The marks, the brackets, the point and the truth values.
  iterate 14 refine List.forall_mem_cons.2 ⟨.inl (tells_emitToken _ _), ?_⟩
  refine List.forall_mem_cons.2 ⟨.inl tells_end, ?_⟩
  iterate 2 refine List.forall_mem_cons.2 ⟨.inl tells_silent, ?_⟩
  refine List.forall_mem_cons.2 ⟨.inl (tells_emitChar 2), ?_⟩
  refine List.forall_mem_cons.2 ⟨.inl (tells_emitMatch _), ?_⟩
  exact List.forall_mem_singleton.2 (.inl (tells_emitMatch _))

end Scheme

namespace Grammar

/-- With both grammars the texts of the tokens lex to the same tokens again. -/
theorem tokens_relex : Respaces KLisp.tokenize ∧ Respaces Scheme.tokenize :=
  ⟨KLisp.endsAtSpaces.respaces KLisp.writes KLisp.tokenize_eq,
    Scheme.endsAtSpaces.respaces Scheme.writes Scheme.tokenize_eq⟩

/-- Numbers without anything between them, a character literal of a space with a comment behind it,
a string literal with a semicolon, and a number that does not fit; and a comma that stands apart
from an at sign, which together would be one mark. -/
theorem tokens_relex_sample :
    (∃ again, KLisp.tokenize "1 -2 \\  -x \"b;\" 9223372036854775808" = .ok again ∧
      again.map (·.kind) = [.integer 1, .integer (-2), .char ' ', .symbol "-x", .string "b;",
        .malformed .integer "number too large to fit in target type"]) ∧
    ∃ again, Scheme.tokenize ", @a ,@ #\\  5" = .ok again ∧
      again.map (·.kind) = [.punct ",", .symbol "@a", .punct ",@", .char ' ', .integer 5] := by
  constructor
  · have htokens : KLisp.tokenize "1-2\\ ;a\n-x\"b;\"9223372036854775808" =
        .ok [⟨.integer 1, "1", ⟨⟨0, 1, 1⟩, ⟨1, 1, 2⟩⟩⟩,
          ⟨.integer (-2), "-2", ⟨⟨1, 1, 2⟩, ⟨3, 1, 4⟩⟩⟩,
          ⟨.char ' ', "\\ ", ⟨⟨3, 1, 4⟩, ⟨5, 1, 6⟩⟩⟩,
          ⟨.symbol "-x", "-x", ⟨⟨8, 2, 1⟩, ⟨10, 2, 3⟩⟩⟩,
          ⟨.string "b;", "\"b;\"", ⟨⟨10, 2, 3⟩, ⟨14, 2, 7⟩⟩⟩,
          ⟨.malformed .integer "number too large to fit in target type", "9223372036854775808",
            ⟨⟨14, 2, 7⟩, ⟨33, 2, 26⟩⟩⟩] := by
      decide +kernel
    obtain ⟨again, hagain, hkinds, -⟩ := tokens_relex.1 htokens
    exact ⟨again, hagain, hkinds⟩
  · have htokens : Scheme.tokenize ", @a,@#\\ #!x!#5" =
        .ok [⟨.punct ",", ",", ⟨⟨0, 1, 1⟩, ⟨1, 1, 2⟩⟩⟩,
          ⟨.symbol "@a", "@a", ⟨⟨2, 1, 3⟩, ⟨4, 1, 5⟩⟩⟩,
          ⟨.punct ",@", ",@", ⟨⟨4, 1, 5⟩, ⟨6, 1, 7⟩⟩⟩,
          ⟨.char ' ', "#\\ ", ⟨⟨6, 1, 7⟩, ⟨9, 1, 10⟩⟩⟩,
          ⟨.integer 5, "5", ⟨⟨14, 1, 15⟩, ⟨15, 1, 16⟩⟩⟩] := by
      decide +kernel
    obtain ⟨again, hagain, hkinds, -⟩ := tokens_relex.2 htokens
    exact ⟨again, hagain, hkinds⟩

end Grammar

end DerivativeLexer
