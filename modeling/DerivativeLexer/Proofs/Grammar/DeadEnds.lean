import DerivativeLexer.Proofs.Grammar.Blocks
import DerivativeLexer.Proofs.Grammar.Delivery
import DerivativeLexer.Proofs.Grammar.Lines
import DerivativeLexer.Proofs.Grammar.Strings
import DerivativeLexer.Proofs.Lexer.Cutting
import DerivativeLexer.Proofs.Session.Previews
import DerivativeLexer.Proofs.Session.Unlimited

/-! # Where lexing fails

Both grammars come to a dead end for one of two reasons. Between two tokens no rule has a beginning
of what is left: then the text before it lexes by itself, to the tokens that were emitted. Or a
string literal or a block comment was opened and is never closed: then the dead end is the end of
the text. -/

namespace DerivativeLexer

open DerivativeLexer.Language

variable {π : Type}

/-! ### Rules between tokens -/

theorem Effect.emitted_append_close {τ : Type} (effects : List (Effect τ)) :
    emitted (effects ++ [.close]) = emitted effects := by
  induction effects with
  | nil => rfl
  | cons effect later ih =>
    cases effect with
    | emit item => exact congrArg (item :: ·) ih
    | close => rfl
    | request r => exact ih

namespace Layers

variable {g : Layers π} {l : Lexer Token π} {introducer : String} {source : List Char}
  {payloads : Payloads π} {place : Position} {items : List Token}

/-- A text that is cut where a match begins between two tokens lexes to the tokens so far. -/
theorem BreaksLines.tokenize_take (h : g.BreaksLines l.rules introducer) (hlexes : g.Lexes l)
    (hbegins : l.Begins source g.main payloads place items) :
    l.tokenize (source.take place.offset) = .ok items := by
  obtain ⟨i, hwins, hfire⟩ := hlexes.ends.wins
  obtain ⟨fs, hmunches, hitems⟩ := hbegins.munches_take
    (fun s text hne j => h.not_matches_end hne j) (.finish hwins (hfire _ _))
  have htokenizes : l.Tokenizes RuleTable.initial .empty .start (source.take place.offset) items
      none := by
    refine ⟨_, hmunches, ?_⟩
    rw [List.flatMap_append, ← hitems]
    exact Effect.emitted_append_close _
  exact htokenizes.tokenize_eq hlexes.maxMatch

/-- Wherever the rule matches between two tokens, lexing goes on between tokens: behind the match,
or behind what the match has opened. If that is not closed, lexing fails at the end of the text. -/
def Resumes (g : Layers π) (l : Lexer Token π) (Unclosed : List Char → Prop)
    (rule : Rule Token π) : Prop :=
  (∀ m payloads, (rule.action.perform m payloads).1 = g.main) ∨
    ∀ {source : List Char} {payloads : Payloads π} {place : Position} {items : List Token}
        {p q : List Char}, l.Begins source g.main payloads place items →
      source.drop place.offset = p ++ q → symbols p ∈ rule.pattern.words →
        (Unclosed (p ++ q) ∧
          l.tokenize source = .error (.deadEnd (Position.start.advanceBy source) "")) ∨
        ∃ later place' items', l.Begins source g.main later place' items' ∧
          place.offset < place'.offset

theorem resumes_main {Unclosed : List Char → Prop} {rule : Rule Token π}
    (h : ∀ m payloads, (rule.action.perform m payloads).1 = g.main) : g.Resumes l Unclosed rule :=
  .inl h

/-- A text that opens a string literal and does not close it. -/
def UnclosedString (text : List Char) : Prop := ∃ body, text = '"' :: body ∧ scanString body = none

theorem Quotes.resumes (h : g.Quotes l.rules) (hlexes : g.Lexes l) {Unclosed : List Char → Prop}
    (hunclosed : ∀ text, UnclosedString text → Unclosed text) (action : Act Token π StateId) :
    g.Resumes l Unclosed ⟨lit "\"", action⟩ := by
  refine .inr fun {source payloads place items p q} hbegins htext hwords => ?_
  obtain rfl : p = ['"'] := symbols_mem_lit.1 hwords
  cases hscan : scanString q with
  | none =>
    exact .inl ⟨hunclosed _ ⟨q, rfl, hscan⟩, h.tokenize_of_unclosed hlexes hbegins htext hscan⟩
  | some lit =>
    obtain ⟨later, hbegins', -⟩ := h.begins_behind hlexes hbegins htext hscan
    refine .inr ⟨_, _, _, hbegins', ?_⟩
    rw [Position.offset_advanceBy, List.length_cons]
    omega

/-! ### Dead ends -/

/-- Why lexing comes to a dead end at the place. -/
inductive Stops (g : Layers π) (l : Lexer Token π) (Unclosed : List Char → Prop)
    (source : List Char) (place : Position) : Prop
  /-- A match begins there between two tokens, and no rule has a beginning of what is left. -/
  | stuck {payloads : Payloads π}
      (hbegins : l.Begins source g.main payloads place (l.lastRun source).output.queue)
      (hne : source.drop place.offset ≠ [])
      (hnone : ∀ p, p <+: source.drop place.offset → p ≠ [] →
        ∀ j, ¬l.rules.Matches g.main (symbols p) j)
  /-- It is the end of the text, and something was opened between two tokens and is not closed. -/
  | unclosed {payloads : Payloads π} {opening : Position} {items : List Token}
      (hplace : place = Position.start.advanceBy source)
      (hbegins : l.Begins source g.main payloads opening items)
      (hunclosed : Unclosed (source.drop opening.offset))

/-- Lexing is followed from match to match between two tokens, and past what was opened. -/
theorem Lexes.stops (hlexes : g.Lexes l) {Unclosed : List Char → Prop}
    (hresumes : ∀ rule ∈ l.rules.rules g.main, g.Resumes l Unclosed rule) {remaining : String}
    (hfails : (l.lastRun source).status = .failed (.deadEnd place remaining)) {begun : Position}
    (hbegins : l.Begins source g.main payloads begun items) :
    g.Stops l Unclosed source place := by
  -- A literal or a comment is many matches in other states: what gets less is the rest of the text.
  induction hleft : source.length - begun.offset using Nat.strong_induction_on
    generalizing payloads begun items with
  | _ left ih =>
    obtain ⟨fs, e, hmunches, hstatus, hitems⟩ := hbegins.munches hlexes.maxMatch
    rw [hfails] at hstatus
    generalize htext : source.drop begun.offset = text at hmunches
    cases hmunches with
    | finish => cases hstatus
    | stuck hwhole hnone =>
      obtain ⟨rfl, -⟩ := LexError.deadEnd.inj (SessionStatus.failed.inj hstatus)
      subst htext
      rw [← hitems rfl] at hbegins
      refine .stuck hbegins (fun hnil => ?_) hnone
      obtain ⟨j, hwins, -⟩ := hlexes.ends.wins
      rw [hnil] at hwhole
      exact hwhole j hwins.1
    | @next _ _ _ _ p q i firing more error hwhole hsplit hne hwins hlongest hfiring hlater =>
      subst hsplit
      have hlength := List.length_pos_of_ne_nil hne
      have hon : ∀ {later place' items'}, l.Begins source g.main later place' items' →
          begun.offset < place'.offset → g.Stops l Unclosed source place := by
        intro later place' items' hbegins' hlt
        refine ih _ ?_ hbegins' rfl
        have hsplit := congrArg List.length htext
        rw [List.length_drop, List.length_append] at hsplit
        omega
      obtain ⟨rule, hrule, hwords, hperform⟩ := hwins.1.of_fire? hfiring
      rcases hresumes rule hrule with hmain | hbehind
      · obtain ⟨items', hbegins'⟩ :=
          hbegins.wins hlexes.maxMatch htext hne hwins ⟨hlongest, hwhole⟩ hfiring
        have hnext : firing.next = g.main := by
          rw [← hmain, hperform]
        rw [hnext] at hbegins'
        refine hon hbegins' ?_
        rw [Position.offset_advanceBy]
        omega
      · -- The rule opens a literal or a comment.
        rcases hbehind hbegins htext hwords with ⟨hunclosed, htokenize⟩ | hfurther
        · have hend := Lexer.lastRun_of_tokenize htokenize
          rw [hfails] at hend
          obtain ⟨rfl, -⟩ := LexError.deadEnd.inj (SessionStatus.failed.inj hend)
          exact .unclosed rfl hbegins (htext ▸ hunclosed)
        · obtain ⟨later, place', items', hbegins', hlt⟩ := hfurther
          exact hon hbegins' hlt

end Layers

/-- A dead end of a lexer in a text, when it had emitted these tokens. Either there is something
left, what stands before it lexes by itself to the tokens, and no rule of the main state has a
beginning of what is left; or the text is at its end, and at a place where the main state began a
match something was opened that is not closed. -/
structure DeadEnd (l : Lexer Token π) (tokenize : String → Except LexError (List Token))
    (Unclosed : List Char → Prop) (source : String) (tokens : List Token) (place : Position) :
    Prop where
  place_eq : place = Position.start.advanceBy (source.toList.take place.offset)
  cause :
    (place.offset < source.toList.length ∧
        tokenize (String.ofList (source.toList.take place.offset)) = .ok tokens ∧
        ∀ p, p <+: source.toList.drop place.offset → p ≠ [] →
          ∀ rule ∈ l.rules.rules RuleTable.initial, rule.pattern.accepts p = false) ∨
      place.offset = source.toList.length ∧ ∃ payloads opening items,
        l.Begins source.toList RuleTable.initial payloads opening items ∧
          Unclosed (source.toList.drop opening.offset)

/-- With the rules of a lexer dead ends are located, whatever the limit on matches and the preview:
in a text that is there as a whole, and in one that comes in pieces. A dead end shows the beginning
of what is left, as much as the configuration wants to see, if all of it was there. -/
structure LocatesDeadEnds (standard : Lexer Token π)
    (tokenize : String → Except LexError (List Token)) (Unclosed : List Char → Prop) : Prop where
  runs : ∀ source : String, tokenize source = standard.tokenize source.toList
  whole : ∀ {l : Lexer Token π} {source : String} {place : Position} {remaining : String},
    l.rules = standard.rules → l.tokenize source.toList = .error (.deadEnd place remaining) →
      DeadEnd l tokenize Unclosed source (l.lastRun source.toList).output.queue place ∧
        remaining = String.ofList ((source.toList.drop place.offset).take l.config.preview)
  pieces : ∀ {l : Lexer Token π} {source : String} {closed : Bool} {s x : Nat}
      {n : Network Token π} {σ : Session Token π} {place : Position} {remaining : String},
    l.rules = standard.rules → Streamed l s 0 x ⟨source.toList, 0, closed⟩ n σ →
      σ.status = .failed (.deadEnd place remaining) →
        DeadEnd l tokenize Unclosed source σ.items place ∧
          remaining.toList <+: (source.toList.drop place.offset).take l.config.preview
  awaited : ∀ {l : Lexer Token π} {source : String} {closed : Bool} {s x : Nat}
      {n : Network Token π} {σ : Session Token π} {place : Position} {remaining : String},
    l.rules = standard.rules → Awaited l s x ⟨source.toList, 0, closed⟩ n σ →
      σ.status = .failed (.deadEnd place remaining) →
        DeadEnd l tokenize Unclosed source σ.items place ∧
          remaining = String.ofList ((source.toList.drop place.offset).take l.config.preview)

/-! ### Any configuration -/

section

variable {g : Layers π} {l l' : Lexer Token π} {introducer : String}
  {tokenize : String → Except LexError (List Token)} {Unclosed : List Char → Prop}
  {place : Position} {remaining : String}

theorem Layers.BreaksLines.deadEnd (h : g.BreaksLines l'.rules introducer) (hlexes : g.Lexes l')
    (hresumes : ∀ rule ∈ l'.rules.rules g.main, g.Resumes l' Unclosed rule)
    (hruns : ∀ source : String, tokenize source = l'.tokenize source.toList) {source : String}
    (hrules : l'.rules = l.rules)
    (hstatus : (l.lastRun source.toList).status = .failed (.deadEnd place remaining)) :
    DeadEnd l tokenize Unclosed source (l.lastRun source.toList).output.queue place := by
  obtain ⟨remaining', hstatus', houtput⟩ :=
    Lexer.deadEnd_of_same_rules hrules hlexes.maxMatch hstatus
  have hlimit := Lexer.not_tooLong_of_deadEnd hstatus
  have hstart := Lexer.Begins.start l' source.toList
  rw [← hlexes.main_eq] at hstart
  cases hlexes.stops hresumes hstatus' hstart with
  | stuck hbegins hne hnone =>
    refine ⟨hbegins.place_eq, .inl ⟨?_, ?_, fun p hp hpne rule hrule => ?_⟩⟩
    · exact Nat.not_le.1 fun hle => hne (List.drop_eq_nil_iff.2 hle)
    · rw [hruns, String.toList_ofList, ← houtput]
      exact h.tokenize_take hlexes hbegins
    · rw [← hrules, ← hlexes.main_eq] at hrule
      obtain ⟨j, hj⟩ := List.mem_iff_getElem?.1 hrule
      refine Bool.eq_false_iff.2 fun haccepts => hnone p hp hpne j ⟨rule, hj, ?_⟩
      exact (Language.acceptsEmpty_deriveWord_iff _ _).1 haccepts
  | @unclosed payloads opening items hplace hbegins hunclosed =>
    rw [hlexes.main_eq] at hbegins
    have hoffset : place.offset = source.toList.length := by
      rw [hplace, Position.offset_advanceBy]
      exact Nat.zero_add _
    refine ⟨?_, .inr ⟨hoffset, payloads, opening, items, ?_, hunclosed⟩⟩
    · rw [hoffset, List.take_length]
      exact hplace
    · exact hbegins.of_same_rules hrules hlexes.maxMatch hlimit

end

/-! ### The grammars -/

section

variable {g : Layers π} {l : Lexer Token π} {introducer : String}
  {tokenize : String → Except LexError (List Token)} {Unclosed : List Char → Prop}

theorem Layers.BreaksLines.locatesDeadEnds (h : g.BreaksLines l.rules introducer)
    (hlexes : g.Lexes l) (hresumes : ∀ rule ∈ l.rules.rules g.main, g.Resumes l Unclosed rule)
    (hruns : ∀ source : String, tokenize source = l.tokenize source.toList) :
    LocatesDeadEnds l tokenize Unclosed where
  runs := hruns
  whole := by
    intro l' source place remaining hrules hfails
    have hstatus := Lexer.lastRun_of_tokenize hfails
    exact ⟨h.deadEnd hlexes hresumes hruns hrules.symm hstatus, Lexer.remaining_eq hstatus⟩
  pieces := by
    intro l' source closed s x n σ place remaining hrules hstreamed hfails
    obtain ⟨hitems, hshows⟩ := hstreamed.foreshows_lastRun (by rw [hfails]; rfl)
    rw [hfails] at hshows
    obtain ⟨remaining', hstatus, hprefix⟩ := hshows.of_deadEnd
    rw [Lexer.remaining_eq hstatus, String.toList_ofList] at hprefix
    rw [hitems]
    exact ⟨h.deadEnd hlexes hresumes hruns hrules.symm hstatus, hprefix⟩
  awaited := by
    intro l' source closed s x n σ place remaining hrules hawaited hfails
    obtain ⟨hitems, hshows⟩ := hawaited.streamed.foreshows_lastRun (by rw [hfails]; rfl)
    rw [hfails] at hshows
    obtain ⟨remaining', hstatus, -⟩ := hshows.of_deadEnd
    rw [hitems]
    exact ⟨h.deadEnd hlexes hresumes hruns hrules.symm hstatus, hawaited.remaining_eq hfails⟩

end

theorem KLisp.resumes :
    ∀ rule ∈ rules.rules layers.main, layers.Resumes standard Layers.UnclosedString rule := by
  refine List.forall_mem_cons.2 ⟨quotes.resumes lexes (fun _ h => h) _, ?_⟩
  iterate 11 refine List.forall_mem_cons.2 ⟨Layers.resumes_main fun _ _ => rfl, ?_⟩
  exact List.forall_mem_singleton.2 (Layers.resumes_main fun _ _ => rfl)

namespace Scheme

/-- A text that opens a string literal or a block comment and does not close it. -/
def Unclosed (text : List Char) : Prop :=
  Layers.UnclosedString text ∨ ∃ body, text = '#' :: '!' :: body ∧ scanBlock 1 body = none

theorem resumes_enter (action : Act Token Payload StateId) :
    layers.Resumes standard Unclosed ⟨lit "#!", action⟩ := by
  refine .inr fun {source payloads place items p q} hbegins htext hwords => ?_
  obtain rfl : p = ['#', '!'] := symbols_mem_lit.1 hwords
  cases hscan : scanBlock 1 q with
  | none =>
    exact .inl ⟨.inr ⟨q, rfl, hscan⟩, tokenize_of_unclosed_block hbegins htext hscan⟩
  | some block =>
    obtain ⟨later, hbegins', -⟩ := begins_behind_block hbegins htext hscan
    refine .inr ⟨_, _, _, hbegins', ?_⟩
    rw [Position.offset_advanceBy, List.length_cons]
    omega

theorem resumes : ∀ rule ∈ rules.rules layers.main, layers.Resumes standard Unclosed rule := by
  refine List.forall_mem_cons.2 ⟨resumes_enter _, ?_⟩
  refine List.forall_mem_cons.2 ⟨quotes.resumes lexes (fun _ h => .inl h) _, ?_⟩
  iterate 19 refine List.forall_mem_cons.2 ⟨Layers.resumes_main fun _ _ => rfl, ?_⟩
  exact List.forall_mem_singleton.2 (Layers.resumes_main fun _ _ => rfl)

end Scheme

namespace Grammar

/-- The dead ends of both grammars are located exactly. -/
theorem dead_ends_located :
    LocatesDeadEnds KLisp.standard KLisp.tokenize Layers.UnclosedString ∧
      LocatesDeadEnds Scheme.standard Scheme.tokenize Scheme.Unclosed :=
  ⟨KLisp.breaksLines.locatesDeadEnds KLisp.lexes KLisp.resumes KLisp.tokenize_eq,
    Scheme.breaksLines.locatesDeadEnds Scheme.lexes Scheme.resumes Scheme.tokenize_eq⟩

/-- A number that might have gone on with the point at which lexing fails, in a text that comes in
two pieces to a lexer that shows two characters; and a block comment that is not closed. -/
theorem dead_ends_located_sample :
    (∃ (l : Lexer Token StringBody) (n : Network Token StringBody) (σ : Session Token StringBody),
      l.rules = KLisp.standard.rules ∧ Awaited l 0 0 ⟨"(1.e5".toList, 0, false⟩ n σ ∧
        σ.status = .failed (.deadEnd ⟨2, 1, 3⟩ ".e") ∧
        DeadEnd l KLisp.tokenize Layers.UnclosedString "(1.e5" σ.items ⟨2, 1, 3⟩ ∧
        KLisp.tokenize "(1" = .ok σ.items) ∧
    Scheme.standard.tokenize "a\n#!b".toList = .error (.deadEnd ⟨5, 2, 4⟩ "") ∧
      ∃ payloads opening items,
        Scheme.standard.Begins "a\n#!b".toList RuleTable.initial payloads opening items ∧
          Scheme.Unclosed ("a\n#!b".toList.drop opening.offset) := by
  constructor
  · let l : Lexer Token StringBody := { KLisp.standard with config := ⟨some 9, 2⟩ }
    obtain ⟨n, σ, hawaited, hstatus⟩ : ∃ n σ, Awaited l 0 0 ⟨"(1.e5".toList, 0, false⟩ n σ ∧
        σ.status = .failed (.deadEnd ⟨2, 1, 3⟩ ".e") := by
      have hbegun := called_given (l := l) KLisp.asksNothing "(1".toList (by decide +kernel)
        (by decide +kernel) (Option.some_get (by decide +kernel)).symm
      have hawaited := Awaited.push hbegun.streamed (by decide +kernel) ".e5".toList 60
        (by decide +kernel)
      have htotal : (⟨"(1".toList, 0, false⟩ : Source Char).push ".e5".toList =
          ⟨"(1.e5".toList, 0, false⟩ := by decide +kernel
      rw [List.foldr_nil, htotal] at hawaited
      exact ⟨_, _, hawaited, by decide +kernel⟩
    have hrules : l.rules = KLisp.standard.rules := rfl
    obtain ⟨hdeadEnd, -⟩ := dead_ends_located.1.awaited hrules hawaited hstatus
    refine ⟨l, n, σ, hrules, hawaited, hstatus, hdeadEnd, ?_⟩
    obtain ⟨-, htokens, -⟩ | ⟨hend, -⟩ := hdeadEnd.cause
    · exact htokens
    · exact absurd hend (by decide +kernel)
  · have hfails : Scheme.standard.tokenize "a\n#!b".toList = .error (.deadEnd ⟨5, 2, 4⟩ "") := by
      decide +kernel
    obtain ⟨hdeadEnd, -⟩ := dead_ends_located.2.whole rfl hfails
    refine ⟨hfails, ?_⟩
    obtain ⟨hlt, -⟩ | ⟨-, hwithin⟩ := hdeadEnd.cause
    · exact absurd hlt (by decide +kernel)
    · exact hwithin

end Grammar

end DerivativeLexer
