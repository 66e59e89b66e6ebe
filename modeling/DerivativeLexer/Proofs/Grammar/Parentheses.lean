import DerivativeLexer.Proofs.Balance.Nesting
import DerivativeLexer.Proofs.Grammar.Respacing

/-! # The parentheses of plain code

In a text without quotation marks, semicolons and backslashes no rule of KLisp can hide a
parenthesis or make one up: a parenthesis is a match of its own, and no other match has one. So the
tokens have the parentheses of the text, in the same order, and the balance of the tokens is that
of the text. -/

namespace DerivativeLexer

open DerivativeLexer.Language

variable {π : Type}

namespace Token

/-- The parenthesis that a token counts as in a balance. -/
def paren? (t : Token) : Option Char :=
  match t.tag with
  | .opening => some '('
  | .closing => some ')'
  | _ => none

/-- The parentheses of tokens, in their order. -/
def parens (tokens : List Token) : List Char := tokens.filterMap paren?

theorem parens_append (a b : List Token) : parens (a ++ b) = parens a ++ parens b :=
  List.filterMap_append

end Token

namespace Balance

theorem ofText_parens_singleton (t : Token) :
    ofText '(' ')' (Token.parens [t]) = ofTag t.tag := by
  have hparens : Token.parens [t] = t.paren?.toList := by
    rw [Token.parens, List.filterMap_cons]
    cases t.paren? <;> rfl
  rw [hparens, Token.paren?]
  cases t.tag <;> rfl

/-- The balance of tokens is that of their parentheses as a text. -/
theorem ofTokens_eq (tokens : List Token) :
    ofTokens tokens = ofText '(' ')' (Token.parens tokens) := by
  induction tokens with
  | nil => rfl
  | cons t rest ih =>
    rw [← List.singleton_append, Token.parens_append, ofText_append, ← ih, ofText_parens_singleton]
    exact sum_cons _ _

theorem brackets_eq_nil {opener closer : Char} {text : List Char} (hopener : opener ∉ text)
    (hcloser : closer ∉ text) : brackets opener closer text = [] := by
  refine List.filter_eq_nil_iff.2 fun c hc => ?_
  rw [Bool.or_eq_true, decide_eq_true_iff, decide_eq_true_iff, not_or]
  exact ⟨fun h => hopener (h ▸ hc), fun h => hcloser (h ▸ hc)⟩

end Balance

open Balance (brackets brackets_eq_nil brackets_append)

/-! ### Rules and the parentheses of their matches -/

/-- None of the characters that can hide a parenthesis. -/
def IsPlain (text : List Char) : Prop := ∀ c ∈ text, c ≠ '"' ∧ c ≠ ';' ∧ c ≠ '\\'

/-- On plain text the rule stays in the state, and what it emits has the parentheses of its match;
at the end of the input it matches nothing and emits nothing. -/
structure Rule.KeepsParens (s : StateId) (rule : Rule Token π) : Prop where
  next : ∀ {m : Matched} {payloads : Payloads π}, symbols m.text ∈ rule.pattern.words →
    IsPlain m.text → ∃ tokens, rule.action.perform m payloads = (s, ⟨tokens.map .emit, payloads⟩) ∧
      Token.parens tokens = brackets '(' ')' m.text
  last : ∀ {m : Matched} {payloads : Payloads π},
    symbols m.text ++ [.endMark] ∈ rule.pattern.words →
      m.text = [] ∧ Effect.emitted (rule.action.perform m payloads).2.effects = []

namespace Rule

variable {s : StateId} {pattern : Language} {kind : TokenKind} {lexeme : String}

/-- A character that the tree reads nowhere is in none of its texts. -/
theorem notMem_text {a : Language} {p : List Char} {c : Char} (ha : a.reads (.char c) = false)
    (h : symbols p ∈ a.words) : c ∉ p :=
  fun hc => Language.notMem_of_reads ha h (List.mem_map_of_mem hc)

/-- A rule whose matches cannot stand in plain text. -/
theorem keepsParens_hidden {action : Act Token π StateId}
    (hhidden : ∀ p, symbols p ∈ pattern.words → ¬IsPlain p) (hend : pattern.readsEnd = false) :
    KeepsParens s ⟨pattern, action⟩ where
  next := fun hwords hplain => (hhidden _ hwords hplain).elim
  last := fun h => (Layers.notMem_last hend h).elim

theorem keepsParens_end : KeepsParens (π := π) s ⟨.endOfInput, do Act.close; pure s⟩ where
  next := by
    intro m payloads hwords
    have hend : Symbol.endMark ∈ symbols m.text := by
      rw [Set.mem_singleton_iff.1 hwords]
      exact List.mem_singleton_self _
    obtain ⟨c, -, hc⟩ := List.mem_map.1 hend
    cases hc
  last := by
    intro m payloads hwords
    have hend : symbols m.text ++ [.endMark] = [] ++ [.endMark] := hwords
    exact ⟨List.map_eq_nil_iff.1 (List.append_cancel_right hend), rfl⟩

theorem keepsParens_silent (hopen : pattern.reads (.char '(') = false)
    (hclose : pattern.reads (.char ')') = false) (hend : pattern.readsEnd = false) :
    KeepsParens (π := π) s ⟨pattern, pure s⟩ where
  next := by
    intro m payloads hwords hplain
    refine ⟨[], rfl, ?_⟩
    rw [brackets_eq_nil (notMem_text hopen hwords) (notMem_text hclose hwords)]
    rfl
  last := fun h => (Layers.notMem_last hend h).elim

/-- A parenthesis is emitted as one, and another fixed text without parentheses as none. -/
theorem keepsParens_emitToken
    (h : ∀ span, Token.parens [⟨kind, lexeme, span⟩] = brackets '(' ')' lexeme.toList) :
    KeepsParens (π := π) s ⟨lit lexeme, do Grammar.emitToken kind lexeme; pure s⟩ where
  next := by
    intro m payloads hwords hplain
    refine ⟨[⟨kind, lexeme, m.span⟩], rfl, ?_⟩
    rw [h, symbols_mem_lit.1 hwords]
  last := fun h => (Layers.notMem_last (readsEnd_lit lexeme) h).elim

/-- A rule that emits its matches, which have no parentheses, as other tokens. -/
theorem keepsParens_emitMatch {kind : List Char → TokenKind}
    (hkind : ∀ text span, Token.parens [⟨kind text, String.ofList text, span⟩] = [])
    (hopen : pattern.reads (.char '(') = false) (hclose : pattern.reads (.char ')') = false)
    (hend : pattern.readsEnd = false) :
    KeepsParens (π := π) s ⟨pattern, do Grammar.emitMatch kind; pure s⟩ where
  next := by
    intro m payloads hwords hplain
    refine ⟨[⟨kind m.text, String.ofList m.text, m.span⟩], rfl, ?_⟩
    rw [hkind, brackets_eq_nil (notMem_text hopen hwords) (notMem_text hclose hwords)]
  last := fun h => (Layers.notMem_last hend h).elim

end Rule

/-! ### Runs -/

/-- What a whole run emits on plain text has the parentheses of the text. -/
theorem Munches.parens {t : RuleTable Token π} {preview : Nat} {s start : StateId}
    {payloads : Payloads π} {place : Position} {text : List Char} {fs : List (Firing Token π)}
    {e : Option LexError} (hkeeps : ∀ rule ∈ t.rules s, rule.KeepsParens s)
    (h : Munches t preview start payloads place text fs e) (hstart : start = s) (hend : e = none)
    (hplain : IsPlain text) :
    Token.parens (Effect.emitted (fs.flatMap (·.effects))) = brackets '(' ')' text := by
  induction h with
  | finish hwins hfiring =>
    subst hstart
    obtain ⟨rule, hrule, hwords, hperform⟩ := hwins.1.of_fire? hfiring
    obtain ⟨rfl, hnone⟩ := (hkeeps rule hrule).last (m := ⟨_, _⟩) hwords
    rw [hperform] at hnone
    rw [List.flatMap_singleton, hnone]
    rfl
  | next hwhole htext hne hwins hlongest hfiring hlater ih =>
    subst hstart htext
    obtain ⟨rule, hrule, hwords, hperform⟩ := hwins.1.of_fire? hfiring
    obtain ⟨hp, hq⟩ := List.forall_mem_append.1 hplain
    obtain ⟨tokens, hdone, hparens⟩ := (hkeeps rule hrule).next (m := ⟨_, _⟩) hwords hp
    obtain ⟨hnext, houtbox⟩ := Prod.mk.inj (hperform.symm.trans hdone)
    obtain ⟨heffects, -⟩ := Outbox.mk.inj houtbox
    have hclose : Effect.close ∉ tokens.map Effect.emit := by simp
    rw [List.flatMap_cons, heffects, Effect.emitted_append hclose,
      Effect.emitted_map_emit, Token.parens_append, hparens, ih hnext hend hq, brackets_append]
  | stuck => cases hend

/-! ### The grammar -/

namespace KLisp

theorem parens_integerKind (text : List Char) (lexeme : String) (span : Span) :
    Token.parens [⟨Grammar.integerKind text, lexeme, span⟩] = [] := by
  unfold Grammar.integerKind
  cases readInteger text <;> rfl

theorem parens_decimalKind (text : List Char) (lexeme : String) (span : Span) :
    Token.parens [⟨Grammar.decimalKind text, lexeme, span⟩] = [] := by
  unfold Grammar.decimalKind
  cases readDecimal? text with
  | none => rfl
  | some x =>
    dsimp only
    split <;> rfl

theorem keepsParens : ∀ rule ∈ rules.rules ⟨0⟩, rule.KeepsParens ⟨0⟩ := by
  refine List.forall_mem_cons.2 ⟨Rule.keepsParens_hidden (fun p hwords hplain => ?_) rfl, ?_⟩
  · rw [symbols_mem_lit.1 hwords] at hplain
    exact (hplain '"' List.mem_cons_self).1 rfl
  iterate 4 refine List.forall_mem_cons.2 ⟨Rule.keepsParens_emitToken fun _ => rfl, ?_⟩
  refine List.forall_mem_cons.2 ⟨Rule.keepsParens_end, ?_⟩
  refine List.forall_mem_cons.2 ⟨Rule.keepsParens_silent ?_ ?_ Grammar.readsEnd_whitespace, ?_⟩
  · decide +kernel
  · decide +kernel
  refine List.forall_mem_cons.2
    ⟨Rule.keepsParens_hidden (fun p hwords hplain => ?_) Grammar.readsEnd_comment, ?_⟩
  · obtain ⟨body, rfl, -⟩ := Grammar.symbols_mem_comment.1 hwords
    exact (hplain ';' List.mem_cons_self).2.1 rfl
  refine List.forall_mem_cons.2 ⟨Rule.keepsParens_emitMatch
    (fun text => parens_integerKind text _) (by decide +kernel) (by decide +kernel)
    (by decide +kernel), ?_⟩
  refine List.forall_mem_cons.2 ⟨Rule.keepsParens_emitMatch
    (fun text => parens_decimalKind text _) (by decide +kernel) (by decide +kernel)
    (by decide +kernel), ?_⟩
  iterate 2 refine List.forall_mem_cons.2 ⟨Rule.keepsParens_emitMatch (fun _ _ => rfl)
    (by decide +kernel) (by decide +kernel) (by decide +kernel), ?_⟩
  refine List.forall_mem_singleton.2
    (Rule.keepsParens_hidden (fun p hwords hplain => ?_) (by decide +kernel))
  obtain ⟨c, rfl⟩ := symbols_mem_lit_anyChar.1 hwords
  exact (hplain '\\' List.mem_cons_self).2.2 rfl

/-- If a text without quotation marks, semicolons and backslashes lexes, the parentheses of the
tokens are those of the text, in the same order, and tokens and text have the same balance. -/
theorem balance_of_tokens {source : String} {tokens : List Token}
    (htokens : tokenize source = .ok tokens) (hquote : '"' ∉ source.toList)
    (hcomment : ';' ∉ source.toList) (hescape : '\\' ∉ source.toList) :
    Token.parens tokens = brackets '(' ')' source.toList ∧
      Balance.ofTokens tokens = Balance.ofText '(' ')' source.toList := by
  obtain ⟨items, e, ⟨fs, hmunches, hitems⟩, hresult⟩ :=
    standard.exists_tokenizes rfl source.toList
  rw [tokenize_eq, hresult] at htokens
  cases e with
  | some error => cases htokens
  | none =>
    obtain rfl := Except.ok.inj htokens
    have hplain : IsPlain source.toList := fun c hc =>
      ⟨fun h => hquote (h ▸ hc), fun h => hcomment (h ▸ hc), fun h => hescape (h ▸ hc)⟩
    have hparens := hmunches.parens keepsParens rfl rfl hplain
    rw [hitems] at hparens
    refine ⟨hparens, ?_⟩
    rw [Balance.ofTokens_eq, hparens, Balance.ofText_brackets]

/-- Parentheses next to other tokens, two of them without a partner. -/
theorem balance_of_tokens_sample :
    '"' ∉ "(a:b))(".toList ∧ ';' ∉ "(a:b))(".toList ∧ '\\' ∉ "(a:b))(".toList ∧
      ∃ tokens, tokenize "(a:b))(" = .ok tokens ∧ Token.parens tokens = "())(".toList ∧
        Balance.ofTokens tokens = ⟨1, 1⟩ := by
  have htokens : tokenize "(a:b))(" = .ok
      [⟨.opening "(", "(", ⟨⟨0, 1, 1⟩, ⟨1, 1, 2⟩⟩⟩,
        ⟨.symbol "a:b", "a:b", ⟨⟨1, 1, 2⟩, ⟨4, 1, 5⟩⟩⟩,
        ⟨.closing ")", ")", ⟨⟨4, 1, 5⟩, ⟨5, 1, 6⟩⟩⟩,
        ⟨.closing ")", ")", ⟨⟨5, 1, 6⟩, ⟨6, 1, 7⟩⟩⟩,
        ⟨.opening "(", "(", ⟨⟨6, 1, 7⟩, ⟨7, 1, 8⟩⟩⟩] := by
    decide +kernel
  have hquote : '"' ∉ "(a:b))(".toList := by decide +kernel
  have hcomment : ';' ∉ "(a:b))(".toList := by decide +kernel
  have hescape : '\\' ∉ "(a:b))(".toList := by decide +kernel
  obtain ⟨hparens, hbalance⟩ := balance_of_tokens htokens hquote hcomment hescape
  exact ⟨hquote, hcomment, hescape, _, htokens, hparens, hbalance⟩

end KLisp

end DerivativeLexer
