import DerivativeLexer.Grammar.KLisp
import DerivativeLexer.Grammar.Scheme
import DerivativeLexer.Proofs.Grammar.Patterns
import DerivativeLexer.Proofs.Language.Expression

/-! # The shapes of numbers, symbols and keywords

The shapes that the grammars give to integers, decimals, symbols, keywords and identifiers are
written down on characters, without reference to patterns. Each pattern has just the texts of its
shape. -/

namespace DerivativeLexer

open DerivativeLexer.Language
open Computability

variable {p : List Char} {c : Char}

/-! ### Words of texts -/

namespace Language

variable {P Q : Char → Prop} {A B : FormalLanguage Symbol}

theorem symbols_mem_mul :
    symbols p ∈ A * B ↔ ∃ u v, p = u ++ v ∧ symbols u ∈ A ∧ symbols v ∈ B := by
  rw [Language.mem_mul]
  constructor
  · rintro ⟨a, ha, b, hb, hab⟩
    obtain ⟨u, v, rfl, rfl, rfl⟩ := List.map_eq_append_iff.1 hab.symm
    exact ⟨u, v, rfl, ha, hb⟩
  · rintro ⟨u, v, rfl, hu, hv⟩
    exact ⟨symbols u, hu, symbols v, hv, (List.map_append).symm⟩

theorem symbols_mem_one : symbols p ∈ (1 : FormalLanguage Symbol) ↔ p = [] := by
  rw [Language.mem_one]
  exact List.map_eq_nil_iff

theorem symbols_mem_one_add : symbols p ∈ 1 + A ↔ p = [] ∨ symbols p ∈ A := by
  rw [Language.mem_add, symbols_mem_one]

theorem charWords_add : charWords P + charWords Q = charWords fun c => P c ∨ Q c := by
  ext w
  rw [Language.mem_add]
  constructor
  · rintro (⟨c, hc, rfl⟩ | ⟨c, hc, rfl⟩)
    · exact ⟨c, .inl hc, rfl⟩
    · exact ⟨c, .inr hc, rfl⟩
  · rintro ⟨c, hc | hc, rfl⟩
    · exact .inl ⟨c, hc, rfl⟩
    · exact .inr ⟨c, hc, rfl⟩

/-- A character of one kind, and any number of characters of another behind it. -/
theorem symbols_mem_charWords_mul_kstar :
    symbols p ∈ charWords P * (charWords Q)∗ ↔ ∃ c q, P c ∧ (∀ d ∈ q, Q d) ∧ p = c :: q := by
  rw [symbols_mem_charWords_mul]
  refine exists_congr fun c => exists_congr fun q => and_congr_right fun _ => ?_
  rw [symbols_mem_kstar_charWords]

theorem words_oneOf (s : String) : (oneOf s).words = charWords (· ∈ s.toList) :=
  Expression.charWords_congr fun _ => CharSet.mem_ofList

theorem words_digit : (range '0' '9').words = charWords fun c => c.isDigit = true :=
  Expression.charWords_congr fun _ => CharSet.mem_interval.trans Char.isDigit_iff_toNat.symm

theorem isLower_iff (c : Char) :
    c.isLower = true ↔ 'a'.toNat ≤ c.toNat ∧ c.toNat ≤ 'z'.toNat :=
  Bool.and_eq_true_iff.trans (and_congr decide_eq_true_iff decide_eq_true_iff)

theorem not_isDigit_of_isAlpha (h : c.isAlpha = true) : c.isDigit = false := by
  refine Bool.eq_false_iff.2 fun hdigit => ?_
  have hrange : 48 ≤ c.toNat ∧ c.toNat ≤ 57 := Char.isDigit_iff_toNat.1 hdigit
  rcases Bool.or_eq_true_iff.1 h with hupper | hlower
  · have hfrom : 65 ≤ c.toNat := (decide_eq_true_iff.1 hupper).1
    omega
  · have hfrom : 97 ≤ c.toNat := ((isLower_iff c).1 hlower).1
    omega

theorem words_letter :
    ((range 'A' 'Z').or (range 'a' 'z')).words = charWords fun c => c.isAlpha = true := by
  have hupper : (range 'A' 'Z').words = charWords fun c => c.isUpper = true :=
    Expression.charWords_congr fun _ => CharSet.mem_interval.trans decide_eq_true_iff.symm
  have hlower : (range 'a' 'z').words = charWords fun c => c.isLower = true :=
    Expression.charWords_congr fun _ => CharSet.mem_interval.trans (isLower_iff _).symm
  rw [words_or, hupper, hlower, charWords_add]
  exact Expression.charWords_congr fun _ => Bool.or_eq_true_iff.symm

end Language

/-! ### Numbers -/

namespace Grammar

def IsSign (p : List Char) : Prop := p = [] ∨ p = ['-']

/-- One or more digits. -/
def AreDigits (p : List Char) : Prop := p ≠ [] ∧ ∀ c ∈ p, c.isDigit = true

inductive IsInteger : List Char → Prop
  | mk {sign ds : List Char} (hsign : IsSign sign) (hdigits : AreDigits ds) :
      IsInteger (sign ++ ds)

/-- What stands before the last digits of a decimal: a sign and a point, which may both be left
out, or an integer and a point. -/
inductive IsLead : List Char → Prop
  | sign {sign : List Char} (hsign : IsSign sign) : IsLead sign
  | point {sign : List Char} (hsign : IsSign sign) : IsLead (sign ++ ['.'])
  | whole {n : List Char} (hinteger : IsInteger n) : IsLead (n ++ ['.'])

inductive IsExponent : List Char → Prop
  | none : IsExponent []
  | some {mark : Char} {n : List Char} (hmark : mark = 'e' ∨ mark = 'E')
      (hinteger : IsInteger n) : IsExponent (mark :: n)

inductive IsDecimal : List Char → Prop
  | mk {lead ds exponent : List Char} (hlead : IsLead lead) (hdigits : AreDigits ds)
      (hexponent : IsExponent exponent) : IsDecimal (lead ++ ds ++ exponent)

theorem symbols_mem_digits : symbols p ∈ digits.words ↔ AreDigits p := by
  rw [digits, words_oneOrMore, words_digit, symbols_mem_charWords_mul_kstar]
  constructor
  · rintro ⟨c, q, hc, hq, rfl⟩
    exact ⟨List.cons_ne_nil _ _, List.forall_mem_cons.2 ⟨hc, hq⟩⟩
  · rintro ⟨hne, hdigits⟩
    obtain ⟨c, q, rfl⟩ := List.exists_cons_of_ne_nil hne
    obtain ⟨hc, hq⟩ := List.forall_mem_cons.1 hdigits
    exact ⟨c, q, hc, hq, rfl⟩

theorem symbols_mem_sign : symbols p ∈ (lit "-").optional.words ↔ IsSign p := by
  rw [words_optional, symbols_mem_one_add, symbols_mem_lit]
  exact Iff.rfl

theorem symbols_mem_integer : symbols p ∈ integer.words ↔ IsInteger p := by
  rw [integer, words_followedBy, symbols_mem_mul]
  constructor
  · rintro ⟨sign, ds, rfl, hsign, hdigits⟩
    exact .mk (symbols_mem_sign.1 hsign) (symbols_mem_digits.1 hdigits)
  · rintro ⟨hsign, hdigits⟩
    exact ⟨_, _, rfl, symbols_mem_sign.2 hsign, symbols_mem_digits.2 hdigits⟩

theorem IsInteger.ne_nil (h : IsInteger p) : p ≠ [] := by
  obtain @⟨sign, ds, -, hdigits⟩ := h
  exact List.append_ne_nil_of_right_ne_nil sign hdigits.1

theorem IsDecimal.ne_nil (h : IsDecimal p) : p ≠ [] := by
  obtain @⟨lead, ds, exponent, -, hdigits, -⟩ := h
  exact List.append_ne_nil_of_left_ne_nil
    (List.append_ne_nil_of_right_ne_nil lead hdigits.1) exponent

/-- An integer is a decimal without point and exponent. -/
theorem IsInteger.isDecimal (h : IsInteger p) : IsDecimal p := by
  obtain ⟨hsign, hdigits⟩ := h
  rw [← List.append_nil (_ ++ _)]
  exact .mk (.sign hsign) hdigits .none

end Grammar

namespace KLisp

open Grammar

theorem symbols_mem_lead :
    symbols p ∈ (((lit "-").optional.followedBy (lit ".").optional).or
      (integer.followedBy (lit "."))).words ↔ IsLead p := by
  rw [words_or, Language.mem_add, words_followedBy, words_followedBy, words_optional (lit "."),
    symbols_mem_mul, symbols_mem_mul]
  constructor
  · rintro (⟨sign, point, rfl, hsign, hpoint⟩ | ⟨n, point, rfl, hn, hpoint⟩)
    · rcases symbols_mem_one_add.1 hpoint with rfl | hpoint
      · rw [List.append_nil]
        exact .sign (symbols_mem_sign.1 hsign)
      · rw [symbols_mem_lit.1 hpoint]
        exact .point (symbols_mem_sign.1 hsign)
    · rw [symbols_mem_lit.1 hpoint]
      exact .whole (symbols_mem_integer.1 hn)
  · intro h
    cases h with
    | sign hsign =>
      exact .inl ⟨_, [], (List.append_nil _).symm, symbols_mem_sign.2 hsign,
        symbols_mem_one_add.2 (.inl rfl)⟩
    | point hsign =>
      exact .inl ⟨_, _, rfl, symbols_mem_sign.2 hsign,
        symbols_mem_one_add.2 (.inr (symbols_mem_lit.2 rfl))⟩
    | whole hn => exact .inr ⟨_, _, rfl, symbols_mem_integer.2 hn, symbols_mem_lit.2 rfl⟩

theorem symbols_mem_exponent :
    symbols p ∈ ((oneOf "eE").followedBy integer).optional.words ↔ IsExponent p := by
  rw [words_optional, symbols_mem_one_add, words_followedBy, words_oneOf,
    symbols_mem_charWords_mul]
  constructor
  · rintro (rfl | ⟨mark, n, hmark, hn, rfl⟩)
    · exact .none
    · exact .some (by simpa using hmark) (symbols_mem_integer.1 hn)
  · intro h
    cases h with
    | none => exact .inl rfl
    | some hmark hn => exact .inr ⟨_, _, by simpa using hmark, symbols_mem_integer.2 hn, rfl⟩

theorem symbols_mem_decimal : symbols p ∈ decimal.words ↔ IsDecimal p := by
  rw [decimal, words_followedBy, words_followedBy, symbols_mem_mul]
  constructor
  · rintro ⟨u, exponent, rfl, hu, hexponent⟩
    obtain ⟨lead, ds, rfl, hlead, hdigits⟩ := symbols_mem_mul.1 hu
    exact .mk (symbols_mem_lead.1 hlead) (symbols_mem_digits.1 hdigits)
      (symbols_mem_exponent.1 hexponent)
  · rintro ⟨hlead, hdigits, hexponent⟩
    exact ⟨_, _, rfl, symbols_mem_mul.2 ⟨_, _, rfl, symbols_mem_lead.2 hlead,
      symbols_mem_digits.2 hdigits⟩, symbols_mem_exponent.2 hexponent⟩

/-! ### Symbols and keywords -/

/-- The characters that a symbol can begin with. -/
def IsHead (c : Char) : Prop := c.isAlpha = true ∨ c ∈ "+/*_?%$#&^=!@<>".toList

/-- The characters that a symbol can go on with. -/
def IsBody (c : Char) : Prop := IsHead c ∨ c.isDigit = true ∨ c = '-' ∨ c = ':'

inductive IsSymbol : List Char → Prop
  | plain {c : Char} {rest : List Char} (hhead : IsHead c) (hrest : ∀ d ∈ rest, IsBody d) :
      IsSymbol (c :: rest)
  | dashed {c : Char} {rest : List Char} (hbody : IsBody c) (hdigit : c.isDigit = false)
      (hrest : ∀ d ∈ rest, IsBody d) : IsSymbol ('-' :: c :: rest)

inductive IsKeyword : List Char → Prop
  | mk {name : List Char} (hne : name ≠ []) (hname : ∀ c ∈ name, IsBody c) :
      IsKeyword (':' :: name)

theorem words_symbolHead : symbolHead.words = charWords IsHead := by
  rw [symbolHead, words_or, words_letter, words_oneOf, charWords_add]
  rfl

theorem words_symbolBody : symbolBody.words = charWords IsBody := by
  rw [symbolBody, words_or, words_or, words_symbolHead, words_digit, words_oneOf, charWords_add,
    charWords_add]
  refine Expression.charWords_congr fun c => ?_
  rw [IsBody, or_assoc]
  simp

theorem IsHead.not_isDigit (h : IsHead c) : c.isDigit = false := by
  rcases h with hletter | hmark
  · exact not_isDigit_of_isAlpha hletter
  · have hmarks : "+/*_?%$#&^=!@<>".toList.all (fun d => d.isDigit == false) = true := by
      decide +kernel
    exact eq_of_beq (List.all_eq_true.1 hmarks c hmark)

/-- What can stand behind a minus at the beginning of a symbol. -/
theorem words_behind_dash : (symbolHead.or (oneOf "-:")).words =
    charWords fun c => IsBody c ∧ c.isDigit = false := by
  rw [words_or, words_symbolHead, words_oneOf, charWords_add]
  refine Expression.charWords_congr fun c => ⟨?_, ?_⟩
  · rintro (hhead | hmark)
    · exact ⟨.inl hhead, hhead.not_isDigit⟩
    · have hmark : c = '-' ∨ c = ':' := by simpa using hmark
      refine ⟨.inr (.inr hmark), ?_⟩
      rcases hmark with rfl | rfl
      · rfl
      · rfl
  · rintro ⟨hhead | hdigit | hmark, hnot⟩
    · exact .inl hhead
    · cases hdigit.symm.trans hnot
    · exact .inr (by simpa using hmark)

theorem symbols_mem_symbol : symbols p ∈ symbol.words ↔ IsSymbol p := by
  rw [symbol, words_or, Language.mem_add, words_followedBy, words_followedBy, words_followedBy,
    words_zeroOrMore, words_symbolHead, words_symbolBody, words_behind_dash, mul_assoc,
    symbols_mem_charWords_mul_kstar, symbols_mem_mul]
  constructor
  · rintro (⟨c, rest, hc, hrest, rfl⟩ | ⟨dash, q, rfl, hdash, hq⟩)
    · exact .plain hc hrest
    · obtain ⟨c, rest, ⟨hbody, hdigit⟩, hrest, rfl⟩ := symbols_mem_charWords_mul_kstar.1 hq
      rw [symbols_mem_lit.1 hdash]
      exact .dashed hbody hdigit hrest
  · intro h
    cases h with
    | plain hhead hrest => exact .inl ⟨_, _, hhead, hrest, rfl⟩
    | dashed hbody hdigit hrest =>
      exact .inr ⟨['-'], _, rfl, symbols_mem_lit.2 rfl,
        symbols_mem_charWords_mul_kstar.2 ⟨_, _, ⟨hbody, hdigit⟩, hrest, rfl⟩⟩

theorem symbols_mem_keyword : symbols p ∈ keyword.words ↔ IsKeyword p := by
  rw [keyword, words_followedBy, words_oneOrMore, words_symbolBody, symbols_mem_mul]
  constructor
  · rintro ⟨mark, name, rfl, hmark, hname⟩
    obtain ⟨c, q, hc, hq, rfl⟩ := symbols_mem_charWords_mul_kstar.1 hname
    rw [symbols_mem_lit.1 hmark]
    exact .mk (List.cons_ne_nil _ _) (List.forall_mem_cons.2 ⟨hc, hq⟩)
  · rintro ⟨hne, hname⟩
    obtain ⟨c, q, rfl⟩ := List.exists_cons_of_ne_nil hne
    obtain ⟨hc, hq⟩ := List.forall_mem_cons.1 hname
    exact ⟨[':'], _, rfl, symbols_mem_lit.2 rfl,
      symbols_mem_charWords_mul_kstar.2 ⟨c, q, hc, hq, rfl⟩⟩

end KLisp

namespace Scheme

/-- The characters of an identifier. -/
def IsName (c : Char) : Prop := c.isAlphanum = true ∨ c ∈ "-+/*_?%$&^=!@<>:#".toList

structure IsIdentifier (p : List Char) : Prop where
  ne_nil : p ≠ []
  start : p.head? ≠ some '#'
  names : ∀ c ∈ p, IsName c

theorem words_start : ((((range 'A' 'Z').or (range 'a' 'z')).or (range '0' '9')).or
    (oneOf "-+/*_?%$&^=!@<>:")).words = charWords fun c => IsName c ∧ c ≠ '#' := by
  rw [words_or, words_or, words_letter, words_digit, words_oneOf, charWords_add, charWords_add]
  refine Expression.charWords_congr fun c => ?_
  have hword : c.isAlphanum = true ↔ c.isAlpha = true ∨ c.isDigit = true := Bool.or_eq_true_iff
  have hmarks : "-+/*_?%$&^=!@<>:#".toList = "-+/*_?%$&^=!@<>:".toList ++ ['#'] := by
    decide +kernel
  rw [← hword, IsName, hmarks, List.mem_append, List.mem_singleton, ← or_assoc]
  constructor
  · rintro hstart
    refine ⟨.inl hstart, ?_⟩
    rintro rfl
    revert hstart
    decide +kernel
  · rintro ⟨hstart | hsharp, hne⟩
    · exact hstart
    · exact (hne hsharp).elim

theorem words_name : (((((range 'A' 'Z').or (range 'a' 'z')).or (range '0' '9')).or
    (oneOf "-+/*_?%$&^=!@<>:")).or (lit "#")).words = charWords IsName := by
  have hmark : (lit "#").words = charWords (· = '#') := rfl
  rw [words_or, words_start, hmark, charWords_add]
  refine Expression.charWords_congr fun c => ⟨?_, fun hname => ?_⟩
  · rintro (⟨hname, -⟩ | rfl)
    · exact hname
    · exact .inr (by decide +kernel)
  · rcases eq_or_ne c '#' with hc | hc
    · exact .inr hc
    · exact .inl ⟨hname, hc⟩

theorem symbols_mem_identifier : symbols p ∈ identifier.words ↔ IsIdentifier p := by
  rw [identifier, words_followedBy, words_zeroOrMore, words_start, words_name,
    symbols_mem_charWords_mul_kstar]
  constructor
  · rintro ⟨c, rest, ⟨hname, hc⟩, hrest, rfl⟩
    exact ⟨List.cons_ne_nil _ _, fun h => hc (Option.some.inj h),
      List.forall_mem_cons.2 ⟨hname, hrest⟩⟩
  · rintro ⟨hne, hstart, hnames⟩
    obtain ⟨c, rest, rfl⟩ := List.exists_cons_of_ne_nil hne
    obtain ⟨hc, hrest⟩ := List.forall_mem_cons.1 hnames
    exact ⟨c, rest, ⟨hc, fun h => hstart (congrArg some h)⟩, hrest, rfl⟩

end Scheme

end DerivativeLexer
