import DerivativeLexer.Proofs.Grammar.Shapes
import DerivativeLexer.Proofs.Language.Disjoint
import DerivativeLexer.Proofs.Lexer.LiveRules

/-! # Where the order of rules decides

Between two tokens the rules of a grammar have no text in common, but for a few: the truth values
of KLisp are symbols too, and an integer is also a decimal there, and an identifier in Scheme. Only
for these it matters which of the two rules comes first. -/

namespace DerivativeLexer

open DerivativeLexer.Language

variable {τ π : Type}

theorem Language.accepts_iff {a : Language} {p : List Char} :
    a.accepts p = true ↔ symbols p ∈ a.words := acceptsEmpty_deriveWord_iff a (symbols p)

/-! ### Ties -/

namespace RuleTable

def patterns (t : RuleTable τ π) (s : StateId) : List Language := (t.rules s).map (·.pattern)

/-- Two rules of the state have a text in common just if it is a tie. Both rules of a tie stand in
the state, in this order, and a rule wins every text that it has and for which it is not the second
rule of a tie, wherever it stands. -/
structure TiesOnly (t : RuleTable τ π) (s : StateId)
    (Ties : Language → Language → List Char → Prop) : Prop where
  common : (t.patterns s).Pairwise fun first second =>
    ∀ text, first.accepts text = true ∧ second.accepts text = true ↔ Ties first second text
  listed : ∀ {first second : Language} {text : List Char}, Ties first second text →
    List.Sublist [first, second] (t.patterns s)
  wins : ∀ {i : Nat} {pattern : Language} {text : List Char},
    (t.patterns s)[i]? = some pattern → pattern.accepts text = true →
      (∀ first, ¬Ties first pattern text) → t.Wins s (symbols text) i

variable {t : RuleTable τ π} {s : StateId} {Ties : Language → Language → List Char → Prop}

theorem matches_iff {text : List Char} {i : Nat} : t.Matches s (symbols text) i ↔
    ∃ pattern, (t.patterns s)[i]? = some pattern ∧ pattern.accepts text = true := by
  rw [patterns, List.getElem?_map]
  constructor
  · rintro ⟨rule, hrule, hwords⟩
    exact ⟨rule.pattern, congrArg _ hrule, accepts_iff.2 hwords⟩
  · rintro ⟨pattern, hpattern, haccepts⟩
    obtain ⟨rule, hrule, rfl⟩ := Option.map_eq_some_iff.1 hpattern
    exact ⟨rule, hrule, accepts_iff.1 haccepts⟩

theorem wins_of_common (hcommon : (t.patterns s).Pairwise fun first second =>
      ∀ text, first.accepts text = true ∧ second.accepts text = true ↔ Ties first second text)
    {i : Nat} {pattern : Language} {text : List Char} (hpattern : (t.patterns s)[i]? = some pattern)
    (haccepts : pattern.accepts text = true) (hnone : ∀ first, ¬Ties first pattern text) :
    t.Wins s (symbols text) i := by
  refine ⟨matches_iff.2 ⟨pattern, hpattern, haccepts⟩, fun j hj hother => ?_⟩
  obtain ⟨other, hother, haccepts'⟩ := matches_iff.1 hother
  obtain ⟨hjlt, rfl⟩ := List.getElem?_eq_some_iff.1 hother
  obtain ⟨hilt, rfl⟩ := List.getElem?_eq_some_iff.1 hpattern
  have htie := (List.pairwise_iff_getElem.1 hcommon j i hjlt hilt hj text).1 ⟨haccepts', haccepts⟩
  exact hnone _ htie

/-- All pairs of rules are looked at, and those that are not seen to be apart are known. -/
theorem tiesOnly_of_pairs (pairs : List (Language × Language))
    (hpairs : (t.patterns s).Pairwise fun first second =>
      apart 2 first second = true ∨ (first, second) ∈ pairs)
    (hties : ∀ {first second text}, Ties first second text →
      List.Sublist [first, second] (t.patterns s) ∧
        first.accepts text = true ∧ second.accepts text = true)
    (hcomplete : ∀ pair ∈ pairs, ∀ text, pair.1.accepts text = true →
      pair.2.accepts text = true → Ties pair.1 pair.2 text) : t.TiesOnly s Ties := by
  have hcommon : (t.patterns s).Pairwise fun first second =>
      ∀ text, first.accepts text = true ∧ second.accepts text = true ↔ Ties first second text := by
    refine hpairs.imp fun {first second} hpair text => ⟨?_, fun htie => (hties htie).2⟩
    rintro ⟨hfirst, hsecond⟩
    rcases hpair with hapart | hmem
    · exact (notMem_of_apart hapart (accepts_iff.1 hfirst) (accepts_iff.1 hsecond)).elim
    · exact hcomplete _ hmem text hfirst hsecond
  exact ⟨hcommon, fun htie => (hties htie).1, wins_of_common hcommon⟩

end RuleTable

/-! ### The grammars -/

open Grammar

namespace KLisp

/-- The texts that two rules between tokens have in common. -/
inductive Ties : Language → Language → List Char → Prop
  | yes : Ties (lit "true") symbol "true".toList
  | no : Ties (lit "false") symbol "false".toList
  | number {text : List Char} (h : IsInteger text) : Ties integer decimal text

theorem tiesOnly : rules.TiesOnly RuleTable.initial Ties := by
  refine RuleTable.tiesOnly_of_pairs
    [(lit "true", symbol), (lit "false", symbol), (integer, decimal)] (by decide +kernel) ?_ ?_
  · intro first second text h
    cases h with
    | yes => exact ⟨by decide +kernel, by decide +kernel, by decide +kernel⟩
    | no => exact ⟨by decide +kernel, by decide +kernel, by decide +kernel⟩
    | number h =>
      exact ⟨by decide +kernel, accepts_iff.2 (symbols_mem_integer.2 h),
        accepts_iff.2 (symbols_mem_decimal.2 h.isDecimal)⟩
  · refine List.forall_mem_cons.2 ⟨fun text hword _ => ?_,
      List.forall_mem_cons.2 ⟨fun text hword _ => ?_,
        List.forall_mem_singleton.2 fun text hword _ => ?_⟩⟩
    · rw [symbols_mem_lit.1 (accepts_iff.1 hword)]
      exact .yes
    · rw [symbols_mem_lit.1 (accepts_iff.1 hword)]
      exact .no
    · exact .number (symbols_mem_integer.1 (accepts_iff.1 hword))

end KLisp

namespace Scheme

/-- The texts that two rules between tokens have in common. -/
inductive Ties : Language → Language → List Char → Prop
  | number {text : List Char} (h : IsInteger text) : Ties integer identifier text

/-- An integer begins with its sign or a digit, and both can stand in an identifier. -/
theorem isIdentifier_of_isInteger {p : List Char} (h : IsInteger p) : IsIdentifier p := by
  obtain @⟨sign, ds, hsign, hne, hdigits⟩ := h
  have hchars : ∀ c ∈ sign ++ ds, c = '-' ∨ c.isDigit = true := by
    intro c hc
    rcases List.mem_append.1 hc with hc | hc
    · rcases hsign with rfl | rfl
      · cases hc
      · exact .inl (List.mem_singleton.1 hc)
    · exact .inr (hdigits c hc)
  refine ⟨List.append_ne_nil_of_right_ne_nil sign hne, fun hhead => ?_, fun c hc => ?_⟩
  · rcases hchars '#' (List.mem_of_mem_head? hhead) with hmark | hdigit
    · cases hmark
    · cases hdigit
  · rcases hchars c hc with rfl | hdigit
    · exact .inr (by decide +kernel)
    · exact .inl (Bool.or_eq_true_iff.2 (.inr hdigit))

theorem tiesOnly : rules.TiesOnly RuleTable.initial Ties := by
  refine RuleTable.tiesOnly_of_pairs [(integer, identifier)] (by decide +kernel) ?_ ?_
  · rintro first second text ⟨h⟩
    exact ⟨by decide +kernel, accepts_iff.2 (symbols_mem_integer.2 h),
      accepts_iff.2 (symbols_mem_identifier.2 (isIdentifier_of_isInteger h))⟩
  · refine List.forall_mem_singleton.2 fun text hword _ => ?_
    exact .number (symbols_mem_integer.1 (accepts_iff.1 hword))

end Scheme

namespace Grammar

/-- The patterns of the grammars have just the texts of their shapes, and the order of the rules
between tokens decides only between the truth values of KLisp and symbols, and between integers
and decimals or identifiers. -/
theorem patterns_exact :
    (∀ text, (integer.accepts text = true ↔ IsInteger text) ∧
      (KLisp.decimal.accepts text = true ↔ IsDecimal text) ∧
      (KLisp.symbol.accepts text = true ↔ KLisp.IsSymbol text) ∧
      (KLisp.keyword.accepts text = true ↔ KLisp.IsKeyword text) ∧
      (Scheme.identifier.accepts text = true ↔ Scheme.IsIdentifier text)) ∧
    List.Sublist [integer, KLisp.decimal, KLisp.keyword, KLisp.symbol]
      (KLisp.rules.patterns RuleTable.initial) ∧
    List.Sublist [integer, Scheme.identifier] (Scheme.rules.patterns RuleTable.initial) ∧
    KLisp.rules.TiesOnly RuleTable.initial KLisp.Ties ∧
    Scheme.rules.TiesOnly RuleTable.initial Scheme.Ties := by
  refine ⟨fun text => ⟨?_, ?_, ?_, ?_, ?_⟩, by decide +kernel, by decide +kernel, KLisp.tiesOnly,
    Scheme.tiesOnly⟩
  · exact accepts_iff.trans symbols_mem_integer
  · exact accepts_iff.trans KLisp.symbols_mem_decimal
  · exact accepts_iff.trans KLisp.symbols_mem_symbol
  · exact accepts_iff.trans KLisp.symbols_mem_keyword
  · exact accepts_iff.trans Scheme.symbols_mem_identifier

/-- A bare minus is no symbol in KLisp, and a number cannot end with its point. -/
example : KLisp.symbol.accepts "-".toList = false ∧ KLisp.decimal.accepts "1.".toList = false := by
  decide +kernel

end Grammar

end DerivativeLexer
