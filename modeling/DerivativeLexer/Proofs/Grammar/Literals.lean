import DerivativeLexer.Proofs.Decimal.Numeral
import DerivativeLexer.Proofs.Grammar.Ambiguity
import DerivativeLexer.Proofs.Grammar.Lexemes

/-! # Number literals and their values

What the patterns of numbers let through can be read as a number. An integer is malformed only if
its value does not fit into 64 bits, and a decimal only if its value is not finite. In both
grammars the text of every integer of 64 bits is lexed to just that integer. -/

namespace DerivativeLexer

open DerivativeLexer.Language Grammar

variable {π : Type} {text : List Char}

/-! ### Values -/

/-- The token of an integer has its value, if that fits, and says why if it does not. -/
structure IntegerLiteral (text : List Char) (kind : TokenKind) : Prop where
  fits : -0x8000000000000000 ≤ integerValue text → integerValue text < 0x8000000000000000 →
    ∃ n : Int64, n.toInt = integerValue text ∧ kind = .integer n
  tooSmall : integerValue text < -0x8000000000000000 →
    kind = .malformed .integer "number too small to fit in target type"
  tooLarge : 0x8000000000000000 ≤ integerValue text →
    kind = .malformed .integer "number too large to fit in target type"

theorem integerLiteral_integerKind (h : IsInteger text) :
    IntegerLiteral text (integerKind text) := by
  obtain ⟨hfits, hsmall, hlarge⟩ := fits_fitInteger (integerValue text)
  rw [← readInteger_of_isInteger h] at hfits hsmall hlarge
  refine ⟨fun hmin hmax => ?_, fun hlt => ?_, fun hle => ?_⟩
  · obtain ⟨n, hn, hread⟩ := hfits hmin hmax
    rw [integerKind, hread]
    exact ⟨n, hn, rfl⟩
  · rw [integerKind, hsmall hlt]
    rfl
  · rw [integerKind, hlarge hle]
    rfl

theorem integerKind_toString (n : Int64) : integerKind (toString n).toList = .integer n := by
  obtain ⟨hinteger, hvalue⟩ := isInteger_toString n.toInt
  have hmin := n.le_toInt
  have hmax := n.toInt_lt
  obtain ⟨m, hm, hkind⟩ := (integerLiteral_integerKind hinteger).fits (by omega) (by omega)
  rw [hvalue, Int64.toInt_inj] at hm
  rw [hm] at hkind
  exact hkind

/-- The token of a decimal has its value, if that is finite. -/
structure DecimalLiteral (text : List Char) (kind : TokenKind) : Prop where
  isFloat : IsFloat text
  value : ∃ x, readDecimal? text = some x ∧ kind = if x.isFinite then .decimal x
    else .malformed .decimal "number too large to fit in target type"

theorem decimalLiteral_decimalKind (h : IsDecimal text) :
    DecimalLiteral text (decimalKind text) := by
  have hfloat := h.isFloat
  obtain ⟨x, hread⟩ := Option.isSome_iff_exists.1 (isSome_readDecimal?_iff.2 hfloat)
  refine ⟨hfloat, x, hread, ?_⟩
  rw [decimalKind, hread]
  rfl

/-! ### Rules -/

/-- A rule whose action emits the match. -/
def RuleTable.EmitsMatch (t : RuleTable Token π) (s : StateId) (i : Nat) (pattern : Language)
    (kind : List Char → TokenKind) : Prop :=
  (t.rules s)[i]? = some ⟨pattern, do emitMatch kind; pure s⟩

section

variable {t : RuleTable Token π} {s : StateId} {i : Nat} {pattern : Language}
  {kind : List Char → TokenKind}

theorem RuleTable.EmitsMatch.pattern_eq (h : t.EmitsMatch s i pattern kind) :
    (t.patterns s)[i]? = some pattern := by
  rw [patterns, List.getElem?_map, h]
  rfl

theorem RuleTable.EmitsMatch.yields (h : t.EmitsMatch s i pattern kind) (text : List Char) :
    t.Yields s i text (kind text) := by
  intro span payloads
  rw [fire?, h]
  rfl

/-- A text that the rule wins is a lexeme. -/
theorem Layers.EndsAtSpaces.tokenize_match {g : Layers π} {l : Lexer Token π} {introducer : String}
    (h : g.EndsAtSpaces l introducer) (hemits : l.rules.EmitsMatch g.main i pattern kind)
    (hne : text ≠ []) (hwins : l.rules.Wins g.main (symbols text) i) :
    l.tokenize text =
      .ok [⟨kind text, String.ofList text, ⟨.start, Position.start.advanceBy text⟩⟩] :=
  h.tokenize_lexeme (.matched hne hwins (hemits.yields text))

end

/-! ### Tokens -/

/-- With the rules of a lexer integers are read. An integer is won by the rule for integers, which
yields a token for it; alone it is that token; and the text of an integer of 64 bits is that
integer. -/
structure ReadsIntegers (l : Lexer Token π)
    (tokenize : String → Except LexError (List Token)) : Prop where
  rule : ∀ {text : List Char}, integer.accepts text = true → ∃ i,
    (l.rules.patterns RuleTable.initial)[i]? = some integer ∧
      l.rules.Wins RuleTable.initial (symbols text) i ∧
      l.rules.Yields RuleTable.initial i text (integerKind text)
  alone : ∀ {text : List Char}, integer.accepts text = true →
    tokenize (String.ofList text) = .ok
      [⟨integerKind text, String.ofList text, ⟨.start, Position.start.advanceBy text⟩⟩]
  written : ∀ n : Int64, tokenize (toString n) = .ok
    [⟨.integer n, toString n, ⟨.start, Position.start.advanceBy (toString n).toList⟩⟩]

theorem Layers.EndsAtSpaces.readsIntegers {g : Layers π} {l : Lexer Token π} {introducer : String}
    (h : g.EndsAtSpaces l introducer) {Ties : Language → Language → List Char → Prop}
    (hties : l.rules.TiesOnly RuleTable.initial Ties)
    (hfirst : ∀ first text, ¬Ties first integer text) {i : Nat}
    (hemits : l.rules.EmitsMatch RuleTable.initial i integer integerKind)
    {tokenize : String → Except LexError (List Token)}
    (hruns : ∀ source : String, tokenize source = l.tokenize source.toList) :
    ReadsIntegers l tokenize := by
  have hwins : ∀ {text : List Char}, integer.accepts text = true →
      l.rules.Wins RuleTable.initial (symbols text) i := fun haccepts =>
    hties.wins hemits.pattern_eq haccepts fun first => hfirst first _
  have halone : ∀ {text : List Char}, integer.accepts text = true →
      tokenize (String.ofList text) = .ok
        [⟨integerKind text, String.ofList text, ⟨.start, Position.start.advanceBy text⟩⟩] := by
    intro text haccepts
    have hinteger := symbols_mem_integer.1 (accepts_iff.1 haccepts)
    rw [hruns, String.toList_ofList]
    rw [← h.main_eq] at hemits
    exact h.tokenize_match hemits hinteger.ne_nil (h.main_eq ▸ hwins haccepts)
  refine ⟨fun haccepts => ⟨i, hemits.pattern_eq, hwins haccepts, hemits.yields _⟩, halone,
    fun n => ?_⟩
  have hinteger := (isInteger_toString n.toInt).1
  have htokens := halone (accepts_iff.2 (symbols_mem_integer.2 hinteger))
  rw [String.ofList_toList] at htokens
  rw [← integerKind_toString]
  exact htokens

/-- Decimals are read by the rule for decimals, which yields a token for each; one that is no
integer is won by that rule, and alone it is that token. -/
structure ReadsDecimals (l : Lexer Token π)
    (tokenize : String → Except LexError (List Token)) : Prop where
  rule : ∃ i, (l.rules.patterns RuleTable.initial)[i]? = some KLisp.decimal ∧
    ∀ text, l.rules.Yields RuleTable.initial i text (decimalKind text) ∧
      (KLisp.decimal.accepts text = true → integer.accepts text = false →
        l.rules.Wins RuleTable.initial (symbols text) i)
  alone : ∀ {text : List Char}, KLisp.decimal.accepts text = true →
    integer.accepts text = false → tokenize (String.ofList text) = .ok
      [⟨decimalKind text, String.ofList text, ⟨.start, Position.start.advanceBy text⟩⟩]

/-! ### The grammars -/

namespace KLisp

theorem not_ties_integer (first : Language) (text : List Char) : ¬Ties first integer text := by
  intro h
  generalize hsecond : integer = second at h
  cases h with
  | yes => exact absurd hsecond (by decide +kernel)
  | no => exact absurd hsecond (by decide +kernel)
  | number => exact absurd hsecond (by decide +kernel)

theorem not_ties_decimal (first : Language) (hnot : integer.accepts text = false) :
    ¬Ties first decimal text := by
  intro h
  generalize hsecond : decimal = second at h
  cases h with
  | yes => exact absurd hsecond (by decide +kernel)
  | no => exact absurd hsecond (by decide +kernel)
  | number h =>
    rw [accepts_iff.2 (symbols_mem_integer.2 h)] at hnot
    cases hnot

theorem emits_integer : rules.EmitsMatch RuleTable.initial 8 integer integerKind := rfl

theorem emits_decimal : rules.EmitsMatch RuleTable.initial 9 decimal decimalKind := rfl

theorem readsDecimals : ReadsDecimals standard tokenize where
  rule := ⟨9, emits_decimal.pattern_eq, fun text => ⟨emits_decimal.yields text,
    fun haccepts hnot => tiesOnly.wins emits_decimal.pattern_eq haccepts fun first =>
      not_ties_decimal first hnot⟩⟩
  alone := by
    intro text haccepts hnot
    have hdecimal := symbols_mem_decimal.1 (accepts_iff.1 haccepts)
    have hwins := tiesOnly.wins emits_decimal.pattern_eq haccepts fun first =>
      not_ties_decimal first hnot
    rw [tokenize_eq, String.toList_ofList]
    exact endsAtSpaces.tokenize_match emits_decimal hdecimal.ne_nil hwins

end KLisp

namespace Scheme

theorem not_ties_integer (first : Language) (text : List Char) : ¬Ties first integer text := by
  intro h
  generalize hsecond : integer = second at h
  obtain ⟨-⟩ := h
  exact absurd hsecond (by decide +kernel)

theorem emits_integer : rules.EmitsMatch RuleTable.initial 20 integer integerKind := rfl

end Scheme

namespace Grammar

/-- The patterns of numbers and the readers of their values agree: integers are malformed only out
of the range of 64 bits, decimals only if they are not finite, and every integer of 64 bits is
lexed from its text in both grammars. -/
theorem literals_agree :
    (∀ text, integer.accepts text = true →
      Fits (integerValue text) (readInteger text) ∧ IntegerLiteral text (integerKind text)) ∧
    (∀ text, (readDecimal? text).isSome = true ↔ IsFloat text) ∧
    (∀ text, KLisp.decimal.accepts text = true → DecimalLiteral text (decimalKind text)) ∧
    ReadsIntegers KLisp.standard KLisp.tokenize ∧ ReadsIntegers Scheme.standard Scheme.tokenize ∧
    ReadsDecimals KLisp.standard KLisp.tokenize := by
  refine ⟨fun text haccepts => ?_, fun text => isSome_readDecimal?_iff, fun text haccepts => ?_,
    KLisp.endsAtSpaces.readsIntegers KLisp.tiesOnly KLisp.not_ties_integer KLisp.emits_integer
      KLisp.tokenize_eq,
    Scheme.endsAtSpaces.readsIntegers Scheme.tiesOnly Scheme.not_ties_integer Scheme.emits_integer
      Scheme.tokenize_eq,
    KLisp.readsDecimals⟩
  · have hinteger := symbols_mem_integer.1 (accepts_iff.1 haccepts)
    rw [readInteger_of_isInteger hinteger]
    exact ⟨fits_fitInteger _, integerLiteral_integerKind hinteger⟩
  · exact decimalLiteral_decimalKind (KLisp.symbols_mem_decimal.1 (accepts_iff.1 haccepts))

/-- A negative zero with a leading zero, the first integer that does not fit, a decimal with a sign
before its point and one that is not finite, and the least integer of 64 bits. -/
theorem literals_agree_sample :
    (∃ n : Int64, n.toInt = 0 ∧ integerKind "-00".toList = .integer n) ∧
    integerKind "9223372036854775808".toList =
      .malformed .integer "number too large to fit in target type" ∧
    IsFloat "-.5e-1".toList ∧
    decimalKind "1e999".toList = .malformed .decimal "number too large to fit in target type" ∧
    KLisp.tokenize "1e999" = .ok [⟨.malformed .decimal "number too large to fit in target type",
      "1e999", ⟨⟨0, 1, 1⟩, ⟨5, 1, 6⟩⟩⟩] ∧
    Scheme.tokenize "-9223372036854775808" = .ok
      [⟨.integer (-9223372036854775808), "-9223372036854775808", ⟨⟨0, 1, 1⟩, ⟨20, 1, 21⟩⟩⟩] := by
  obtain ⟨hintegers, hreads, hdecimals, -, hscheme, hklisp⟩ := literals_agree
  refine ⟨?_, ?_, ?_, ?_, ?_, ?_⟩
  · have hvalue : integerValue "-00".toList = 0 := by decide +kernel
    obtain ⟨n, hn, hkind⟩ := (hintegers "-00".toList (by decide +kernel)).2.fits
      (by rw [hvalue]; decide) (by rw [hvalue]; decide)
    exact ⟨n, hn.trans hvalue, hkind⟩
  · have hvalue : integerValue "9223372036854775808".toList = 0x8000000000000000 := by
      decide +kernel
    exact (hintegers _ (by decide +kernel)).2.tooLarge (Int.le_of_eq hvalue.symm)
  · exact (hreads _).1 (by decide +kernel)
  · obtain ⟨x, hx, hkind⟩ := (hdecimals "1e999".toList (by decide +kernel)).value
    have hinfinite : readDecimal? "1e999".toList = some (.infinity false) := by decide +kernel
    rw [hinfinite] at hx
    obtain rfl := Option.some.inj hx
    exact hkind
  · have hkind : decimalKind "1e999".toList =
        .malformed .decimal "number too large to fit in target type" := by decide +kernel
    have haccepts : KLisp.decimal.accepts "1e999".toList = true := by decide +kernel
    have hnot : integer.accepts "1e999".toList = false := by decide +kernel
    have htokens := hklisp.alone haccepts hnot
    rw [hkind] at htokens
    exact htokens
  · exact hscheme.written (-9223372036854775808)

end Grammar

end DerivativeLexer
