import DerivativeLexer.Proofs.Grammar.Shapes
import Mathlib.Data.Nat.Digits.Lemmas

/-! # Reading numerals

The number that a numeral stands for is written down with the digits of a number in base ten. An
integer is read as that number, and refused only if it does not fit into 64 bits. The texts that
can be read as decimals are those of a grammar that was written independently of the patterns;
every decimal of the patterns is one of them. -/

namespace DerivativeLexer

open Grammar

variable {p ds tail : List Char}

/-! ### Digits and signs -/

/-- The number with these digits in base ten, the last of which counts the units. -/
def digitsNumber (ds : List Char) : Nat :=
  Nat.ofDigits 10 (ds.reverse.map fun d => d.toNat - '0'.toNat)

theorem digitsValue_append (ds : List Char) (d : Char) :
    digitsValue (ds ++ [d]) = 10 * digitsValue ds + (d.toNat - '0'.toNat) := by
  rw [digitsValue, List.foldl_append]
  rfl

theorem digitsValue_eq (ds : List Char) : digitsValue ds = digitsNumber ds := by
  induction ds using List.reverseRecOn with
  | nil => rfl
  | append_singleton ds d ih =>
    rw [digitsValue_append, ih, digitsNumber, digitsNumber, List.reverse_append,
      List.reverse_singleton, List.singleton_append, List.map_cons, Nat.ofDigits_cons, Nat.add_comm]

/-- The sign of a decimal may also be a plus. -/
def IsFloatSign (p : List Char) : Prop := p = [] ∨ p = ['-'] ∨ p = ['+']

theorem splitSign_append {sign body : List Char} (hsign : IsFloatSign sign)
    (hbody : ∀ c ∈ body.head?, c ≠ '-' ∧ c ≠ '+') :
    splitSign (sign ++ body) = (sign == ['-'], body) := by
  rcases hsign with rfl | rfl | rfl
  · cases body with
    | nil => rfl
    | cons c rest =>
      obtain ⟨hminus, hplus⟩ := hbody c rfl
      rw [List.nil_append, splitSign]
      · rfl
      · exact fun _ h => hminus (List.cons.inj h).1
      · exact fun _ h => hplus (List.cons.inj h).1
  · rfl
  · rfl

theorem exists_splitSign (p : List Char) :
    ∃ sign, IsFloatSign sign ∧ p = sign ++ (splitSign p).2 := by
  unfold splitSign
  split
  · exact ⟨['-'], .inr (.inl rfl), rfl⟩
  · exact ⟨['+'], .inr (.inr rfl), rfl⟩
  · exact ⟨[], .inl rfl, rfl⟩

theorem not_sign_of_isDigit {c : Char} (h : c.isDigit = true) : c ≠ '-' ∧ c ≠ '+' := by
  constructor
  · rintro rfl
    cases h
  · rintro rfl
    cases h

theorem Grammar.AreDigits.not_sign (h : AreDigits ds) : ∀ c ∈ ds.head?, c ≠ '-' ∧ c ≠ '+' :=
  fun _ hc => not_sign_of_isDigit (h.2 _ (List.mem_of_mem_head? hc))

theorem areDigits_iff : (ds.isEmpty || !ds.all Char.isDigit) = false ↔ AreDigits ds := by
  rw [Bool.or_eq_false_iff, List.isEmpty_eq_false_iff, Bool.not_eq_false', List.all_eq_true]
  exact Iff.rfl

/-! ### Integers -/

/-- The number that an integer stands for. -/
def integerValue : List Char → Int
  | '-' :: ds => -(digitsNumber ds : Int)
  | ds => digitsNumber ds

theorem integerValue_of_digits (h : AreDigits ds) : integerValue ds = digitsNumber ds := by
  rw [integerValue]
  rintro rest rfl
  exact (not_sign_of_isDigit (h.2 _ List.mem_cons_self)).1 rfl

/-- An integer can only be refused because it does not fit. -/
theorem readInteger_of_isInteger (h : IsInteger p) :
    readInteger p = fitInteger (integerValue p) := by
  obtain @⟨sign, ds, hsign, hdigits⟩ := h
  have hsplit : splitSign (sign ++ ds) = (sign == ['-'], ds) :=
    splitSign_append (hsign.imp_right .inl) hdigits.not_sign
  have hne : (sign ++ ds).isEmpty = false :=
    List.isEmpty_eq_false_iff.2 (List.append_ne_nil_of_right_ne_nil sign hdigits.1)
  rw [readInteger, hsplit]
  dsimp only
  rw [hne, if_neg Bool.false_ne_true, areDigits_iff.2 hdigits, if_neg Bool.false_ne_true,
    digitsValue_eq]
  rcases hsign with rfl | rfl
  · rw [List.nil_append, integerValue_of_digits hdigits]
    rfl
  · rfl

/-- What is read for a number: an integer of 64 bits, or why it does not fit into them. -/
structure Fits (v : Int) (read : Except IntegerFault Int64) : Prop where
  fits : -0x8000000000000000 ≤ v → v < 0x8000000000000000 → ∃ n : Int64, n.toInt = v ∧ read = .ok n
  tooSmall : v < -0x8000000000000000 → read = .error .tooSmall
  tooLarge : 0x8000000000000000 ≤ v → read = .error .tooLarge

theorem fits_fitInteger (v : Int) : Fits v (fitInteger v) where
  fits := by
    intro hmin hmax
    refine ⟨.ofInt v, Int64.toInt_ofInt_of_le hmin hmax, ?_⟩
    rw [fitInteger, minInteger, maxInteger, if_neg (by omega), if_neg (by omega)]
  tooSmall := fun h => if_pos h
  tooLarge := by
    intro h
    rw [fitInteger, minInteger, maxInteger, if_neg (by omega), if_pos (by omega)]

/-! ### The text of an integer -/

theorem areDigits_toDigits (n : Nat) : AreDigits (Nat.toDigits 10 n) :=
  ⟨Nat.toDigits_ne_nil, fun _ => Nat.isDigit_of_mem_toDigits (by decide) (Nat.le_refl 10)⟩

theorem digitsNumber_toDigits (n : Nat) : digitsNumber (Nat.toDigits 10 n) = n := by
  rw [← digitsValue_eq]
  exact Nat.ofDigitChars_ten_toDigits

/-- The text that a number is written with is an integer, and stands for it. -/
theorem isInteger_toString (v : Int) :
    IsInteger (toString v).toList ∧ integerValue (toString v).toList = v := by
  rw [Int.toString_eq_repr, Int.repr_eq_if]
  split_ifs with h
  · have hdigits := areDigits_toDigits v.toNat
    rw [Nat.repr_eq_ofList_toDigits, String.toList_ofList]
    refine ⟨.mk (.inl rfl) hdigits, ?_⟩
    rw [integerValue_of_digits hdigits, digitsNumber_toDigits]
    omega
  · have hdigits := areDigits_toDigits (-v).toNat
    have htext : ("-" ++ String.ofList (Nat.toDigits 10 (-v).toNat)).toList =
        ['-'] ++ Nat.toDigits 10 (-v).toNat :=
      String.toList_append.trans (congrArg (['-'] ++ ·) String.toList_ofList)
    rw [Nat.repr_eq_ofList_toDigits, htext]
    refine ⟨.mk (.inr rfl) hdigits, ?_⟩
    rw [List.singleton_append, integerValue, digitsNumber_toDigits]
    omega

/-! ### Decimals -/

inductive IsFloatExponent : List Char → Prop
  | none : IsFloatExponent []
  | some {mark : Char} {sign ds : List Char} (hmark : mark = 'e' ∨ mark = 'E')
      (hsign : IsFloatSign sign) (hdigits : AreDigits ds) : IsFloatExponent (mark :: (sign ++ ds))

/-- The texts that can be read as decimals: digits, with or without a point before, among or behind
them, with an optional sign and an optional exponent. -/
inductive IsFloat : List Char → Prop
  | plain {sign ds exponent : List Char} (hsign : IsFloatSign sign) (hdigits : AreDigits ds)
      (hexponent : IsFloatExponent exponent) : IsFloat (sign ++ (ds ++ exponent))
  | pointed {sign whole fraction exponent : List Char} (hsign : IsFloatSign sign)
      (hwhole : ∀ c ∈ whole, c.isDigit = true) (hfraction : ∀ c ∈ fraction, c.isDigit = true)
      (hne : whole ≠ [] ∨ fraction ≠ []) (hexponent : IsFloatExponent exponent) :
      IsFloat (sign ++ (whole ++ '.' :: (fraction ++ exponent)))

theorem Grammar.IsExponent.isFloatExponent (h : IsExponent p) : IsFloatExponent p := by
  cases h with
  | none => exact .none
  | some hmark hn =>
    obtain ⟨hsign, hdigits⟩ := hn
    exact .some hmark (hsign.imp_right .inl) hdigits

/-- Every decimal of the patterns can be read as one. -/
theorem Grammar.IsDecimal.isFloat (h : IsDecimal p) : IsFloat p := by
  obtain @⟨lead, ds, exponent, hlead, hdigits, hexponent⟩ := h
  have hexponent := hexponent.isFloatExponent
  cases hlead with
  | sign hsign =>
    rw [List.append_assoc]
    exact .plain (hsign.imp_right .inl) hdigits hexponent
  | @point sign hsign =>
    rw [List.append_assoc, List.append_assoc]
    exact @IsFloat.pointed sign [] ds exponent (hsign.imp_right .inl) (List.forall_mem_nil _)
      hdigits.2 (.inr hdigits.1) hexponent
  | whole hn =>
    obtain @⟨sign, whole, hsign, hwhole⟩ := hn
    rw [List.append_assoc, List.append_assoc, List.append_assoc]
    exact @IsFloat.pointed sign whole ds exponent (hsign.imp_right .inl) hwhole.2 hdigits.2
      (.inl hwhole.1) hexponent

/-! ### Reading decimals -/

theorem span_digits (hds : ∀ c ∈ ds, c.isDigit = true)
    (htail : ∀ c ∈ tail.head?, c.isDigit = false) :
    (ds ++ tail).takeWhile Char.isDigit = ds ∧ (ds ++ tail).dropWhile Char.isDigit = tail := by
  rw [List.takeWhile_append_of_pos hds, List.dropWhile_append_of_pos hds]
  cases tail with
  | nil => exact ⟨List.append_nil ds, rfl⟩
  | cons c rest =>
    rw [List.takeWhile_cons, List.dropWhile_cons, htail c rfl]
    exact ⟨List.append_nil ds, rfl⟩

theorem IsFloatExponent.head (h : IsFloatExponent p) :
    ∀ c ∈ p.head?, c ≠ '.' ∧ c ≠ '-' ∧ c ≠ '+' ∧ c.isDigit = false := by
  cases h with
  | none => exact fun _ hc => nomatch hc
  | some hmark =>
    intro c hc
    obtain rfl := Option.some.inj hc
    rcases hmark with rfl | rfl
    · decide
    · decide

theorem isSome_readExponent?_iff : (readExponent? p).isSome = true ↔ IsFloatExponent p := by
  constructor
  · intro h
    cases p with
    | nil => exact .none
    | cons mark rest =>
      obtain ⟨sign, hsign, hrest⟩ := exists_splitSign rest
      rw [readExponent?] at h
      dsimp only at h
      by_cases hmark : (mark != 'e' && mark != 'E') = true
      · rw [if_pos hmark] at h
        cases h
      · by_cases hdigits : ((splitSign rest).2.isEmpty || !(splitSign rest).2.all Char.isDigit) =
            true
        · rw [if_neg hmark, if_pos hdigits] at h
          cases h
        · rw [Bool.and_eq_true, bne_iff_ne, bne_iff_ne, not_and_or, not_not, not_not] at hmark
          rw [Bool.not_eq_true] at hdigits
          rw [hrest]
          exact .some hmark hsign (areDigits_iff.1 hdigits)
  · intro h
    cases h with
    | none => rfl
    | @some mark sign ds hmark hsign hdigits =>
      have hnot : (mark != 'e' && mark != 'E') = false := by
        rcases hmark with rfl | rfl
        · rfl
        · rfl
      rw [readExponent?, splitSign_append hsign hdigits.not_sign]
      dsimp only
      rw [hnot, areDigits_iff.2 hdigits]
      rfl

/-- The digits behind a point, if one comes next, and the text behind them. -/
def splitFraction : List Char → List Char × List Char
  | '.' :: r => (r.takeWhile Char.isDigit, r.dropWhile Char.isDigit)
  | r => ([], r)

theorem splitFraction_cases (p : List Char) :
    (∃ fraction rest, p = '.' :: (fraction ++ rest) ∧ (∀ c ∈ fraction, c.isDigit = true) ∧
        splitFraction p = (fraction, rest)) ∨
      splitFraction p = ([], p) := by
  unfold splitFraction
  split
  · exact .inl ⟨_, _, congrArg _ List.takeWhile_append_dropWhile.symm,
      List.all_eq_true.1 List.all_takeWhile, rfl⟩
  · exact .inr rfl

theorem readDecimal?_eq (p : List Char) : readDecimal? p =
    let whole := (splitSign p).2.takeWhile Char.isDigit
    let behind := splitFraction ((splitSign p).2.dropWhile Char.isDigit)
    if whole.isEmpty && behind.1.isEmpty then none
    else (readExponent? behind.2).map fun exponent =>
      .ofDecimal (splitSign p).1 (digitsValue (whole ++ behind.1))
        (exponent - behind.1.length) := rfl

theorem isFloat_of_isSome (h : (readDecimal? p).isSome = true) : IsFloat p := by
  obtain ⟨sign, hsign, hp⟩ := exists_splitSign p
  rw [readDecimal?_eq] at h
  have hsplit : (splitSign p).2.takeWhile Char.isDigit ++ (splitSign p).2.dropWhile Char.isDigit =
    (splitSign p).2 := List.takeWhile_append_dropWhile
  have hwhole : ∀ c ∈ (splitSign p).2.takeWhile Char.isDigit, c.isDigit = true :=
    List.all_eq_true.1 List.all_takeWhile
  generalize (splitSign p).2.takeWhile Char.isDigit = whole at *
  generalize (splitSign p).2.dropWhile Char.isDigit = tail at *
  dsimp only at h
  rw [hp, ← hsplit]
  split_ifs at h with hempty
  · cases h
  · rw [Option.isSome_map, isSome_readExponent?_iff] at h
    rw [Bool.and_eq_true, List.isEmpty_iff, List.isEmpty_iff, not_and_or] at hempty
    rcases splitFraction_cases tail with ⟨fraction, rest, rfl, hfraction, hbehind⟩ | hbehind
    · rw [hbehind] at h hempty
      exact .pointed hsign hwhole hfraction hempty h
    · rw [hbehind] at h hempty
      exact .plain hsign ⟨hempty.resolve_right fun hne => hne rfl, hwhole⟩ h

theorem readDecimal?_append {sign whole : List Char} (hsign : IsFloatSign sign)
    (hwhole : ∀ c ∈ whole, c.isDigit = true)
    (htail : ∀ c ∈ tail.head?, c ≠ '-' ∧ c ≠ '+' ∧ c.isDigit = false)
    (hne : whole ≠ [] ∨ (splitFraction tail).1 ≠ []) :
    readDecimal? (sign ++ (whole ++ tail)) = (readExponent? (splitFraction tail).2).map fun e =>
      .ofDecimal (sign == ['-']) (digitsNumber (whole ++ (splitFraction tail).1))
        (e - (splitFraction tail).1.length) := by
  obtain ⟨htake, hdrop⟩ := span_digits hwhole fun c hc => (htail c hc).2.2
  have hbody : ∀ c ∈ (whole ++ tail).head?, c ≠ '-' ∧ c ≠ '+' := by
    cases whole with
    | nil => exact fun c hc => ⟨(htail c hc).1, (htail c hc).2.1⟩
    | cons d rest => exact fun c hc => not_sign_of_isDigit (hwhole c (List.mem_of_mem_head? hc))
  have hdigits : (whole.isEmpty && (splitFraction tail).1.isEmpty) ≠ true := by
    rw [Ne, Bool.and_eq_true, List.isEmpty_iff, List.isEmpty_iff, not_and_or]
    exact hne
  rw [readDecimal?_eq, splitSign_append hsign hbody]
  dsimp only
  rw [htake, hdrop, if_neg hdigits, digitsValue_eq]

theorem IsFloatExponent.splitFraction_eq (h : IsFloatExponent p) : splitFraction p = ([], p) := by
  rcases splitFraction_cases p with ⟨fraction, rest, rfl, -⟩ | heq
  · exact ((h.head '.' rfl).1 rfl).elim
  · exact heq

/-- Digits that stand alone, with an exponent behind them. -/
theorem readDecimal?_plain {sign ds exponent : List Char} (hsign : IsFloatSign sign)
    (hdigits : AreDigits ds) (hexponent : IsFloatExponent exponent) :
    readDecimal? (sign ++ (ds ++ exponent)) = (readExponent? exponent).map fun e =>
      .ofDecimal (sign == ['-']) (digitsNumber ds) e := by
  have htail := fun c hc => (hexponent.head c hc).2
  rw [readDecimal?_append hsign hdigits.2 htail (.inl hdigits.1), hexponent.splitFraction_eq]
  simp only [List.append_nil, List.length_nil, Nat.cast_zero, Int.sub_zero]

/-- Digits before and behind a point, with an exponent behind them. -/
theorem readDecimal?_pointed {sign whole fraction exponent : List Char}
    (hsign : IsFloatSign sign) (hwhole : ∀ c ∈ whole, c.isDigit = true)
    (hfraction : ∀ c ∈ fraction, c.isDigit = true) (hne : whole ≠ [] ∨ fraction ≠ [])
    (hexponent : IsFloatExponent exponent) :
    readDecimal? (sign ++ (whole ++ '.' :: (fraction ++ exponent))) =
      (readExponent? exponent).map fun e =>
        .ofDecimal (sign == ['-']) (digitsNumber (whole ++ fraction)) (e - fraction.length) := by
  obtain ⟨htake, hdrop⟩ := span_digits hfraction fun c hc => (hexponent.head c hc).2.2.2
  have hsplit : splitFraction ('.' :: (fraction ++ exponent)) = (fraction, exponent) := by
    rw [splitFraction, htake, hdrop]
  have hpoint : ∀ c ∈ ('.' :: (fraction ++ exponent)).head?,
      c ≠ '-' ∧ c ≠ '+' ∧ c.isDigit = false := by
    intro c hc
    obtain rfl := Option.some.inj hc
    decide
  rw [readDecimal?_append hsign hwhole hpoint (hsplit ▸ hne), hsplit]

/-- What can be read as a decimal is just what is in the grammar. -/
theorem isSome_readDecimal?_iff : (readDecimal? p).isSome = true ↔ IsFloat p := by
  refine ⟨isFloat_of_isSome, fun h => ?_⟩
  cases h with
  | plain hsign hdigits hexponent =>
    rw [readDecimal?_plain hsign hdigits hexponent, Option.isSome_map]
    exact isSome_readExponent?_iff.2 hexponent
  | pointed hsign hwhole hfraction hne hexponent =>
    rw [readDecimal?_pointed hsign hwhole hfraction hne hexponent, Option.isSome_map]
    exact isSome_readExponent?_iff.2 hexponent

end DerivativeLexer
