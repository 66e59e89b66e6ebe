import DerivativeLexer.Json.Reader
import DerivativeLexer.Proofs.Decimal.Numeral

/-! # Written numbers are read back

A written number is proper if it has digits before the point, without a leading zero unless that
stands alone, and nothing but digits behind it. Integers and the numbers of data are written
properly. The reader takes a proper number off a text just as it was written, if what stands behind
it cannot belong to a number. -/

namespace DerivativeLexer

open Grammar Json

variable {ds tail rest : List Char} {c : Char} {d : DecimalText}

structure DecimalText.Proper (d : DecimalText) : Prop where
  whole : AreDigits d.whole
  leading : d.whole.head? = some '0' → d.whole.length ≤ 1
  fraction : ∀ c ∈ d.fraction, c.isDigit = true

/-- What stands behind a number cannot belong to it. -/
def EndsNumber (rest : List Char) : Prop :=
  ∀ c ∈ rest.head?, c.isDigit = false ∧ c ≠ '.' ∧ c ≠ 'e' ∧ c ≠ 'E'

/-! ### Reading -/

theorem readDigits_append (hds : AreDigits ds) (htail : ∀ c ∈ tail.head?, c.isDigit = false) :
    readDigits (ds ++ tail) = some (ds, tail) := by
  obtain ⟨htake, hdrop⟩ := span_digits hds.2 htail
  rw [readDigits, htake, hdrop, if_neg (by simpa using hds.1)]

theorem readWhole_append (hd : d.Proper) (htail : ∀ c ∈ tail.head?, c.isDigit = false) :
    readWhole (d.whole ++ tail) = some (d.whole, tail) := by
  have hleading : ¬(decide (d.whole.head? = some '0') && decide (1 < d.whole.length)) = true := by
    rw [Bool.and_eq_true, decide_eq_true_iff, decide_eq_true_iff, not_and, Nat.not_lt]
    exact hd.leading
  rw [readWhole, readDigits_append hd.whole htail]
  exact if_neg hleading

/-- The point and the digits behind it, if there are any. -/
def DecimalText.renderFraction (d : DecimalText) : List Char :=
  if d.fraction.isEmpty then [] else '.' :: d.fraction

theorem readFraction_append (hd : d.Proper)
    (htail : ∀ c ∈ tail.head?, c.isDigit = false ∧ c ≠ '.') :
    readFraction (d.renderFraction ++ tail) = some (d.fraction, tail) := by
  unfold DecimalText.renderFraction
  cases hfraction : d.fraction with
  | nil =>
    rw [List.isEmpty_nil, if_pos rfl, List.nil_append, readFraction]
    rintro r rfl
    exact (htail '.' rfl).2 rfl
  | cons c cs =>
    rw [List.isEmpty_cons, if_neg Bool.false_ne_true, List.cons_append, readFraction, ← hfraction]
    refine readDigits_append ⟨?_, hd.fraction⟩ fun c hc => (htail c hc).1
    rw [hfraction]
    exact List.cons_ne_nil _ _

theorem readPower_append (e : Option Int) (hrest : EndsNumber rest) :
    readPower (DecimalText.renderExponent e ++ rest) = some (e, rest) := by
  cases e with
  | none =>
    rw [DecimalText.renderExponent, List.nil_append]
    cases rest with
    | nil => rfl
    | cons c tail =>
      obtain ⟨-, -, he, hE⟩ := hrest c rfl
      rw [readPower, if_neg (by simp [he, hE])]
  | some e =>
    have hdigits := areDigits_toDigits e.natAbs
    have hread := readDigits_append hdigits fun c hc => (hrest c hc).1
    have hvalue : digitsValue (Nat.toDigits 10 e.natAbs) = e.natAbs :=
      (digitsValue_eq _).trans (digitsNumber_toDigits _)
    rw [DecimalText.renderExponent, List.cons_append, List.cons_append, readPower,
      if_pos (by decide)]
    split_ifs with hnegative
    · have hsign : -(e.natAbs : Int) = e := by omega
      simp only [splitSign, hread, hvalue, Option.bind_eq_bind, Option.bind_some, if_true, hsign]
      rfl
    · have hsign : (e.natAbs : Int) = e := by omega
      simp only [splitSign, hread, hvalue, Option.bind_eq_bind, Option.bind_some,
        Bool.false_eq_true, if_false, hsign]
      rfl

theorem endsNumber_exponent (e : Option Int) (hrest : EndsNumber rest) :
    ∀ c ∈ (DecimalText.renderExponent e ++ rest).head?, c.isDigit = false ∧ c ≠ '.' := by
  cases e with
  | none => exact fun c hc => ⟨(hrest c hc).1, (hrest c hc).2.1⟩
  | some e =>
    intro c hc
    obtain rfl : 'e' = c := Option.some.inj hc
    decide

theorem head_renderFraction (d : DecimalText) (htail : ∀ c ∈ tail.head?, c.isDigit = false) :
    ∀ c ∈ (d.renderFraction ++ tail).head?, c.isDigit = false := by
  unfold DecimalText.renderFraction
  split_ifs
  · exact htail
  · intro c hc
    obtain rfl : '.' = c := Option.some.inj hc
    decide

/-- Reads a number behind its sign. -/
def readUnsigned (negative : Bool) (cs : List Char) : Option (DecimalText × List Char) := do
  let (whole, rest) ← readWhole cs
  let (fraction, rest) ← readFraction rest
  let (exponent, rest) ← readPower rest
  pure (⟨negative, whole, fraction, exponent⟩, rest)

theorem readNumber_minus (cs : List Char) : readNumber ('-' :: cs) = readUnsigned true cs := rfl

theorem readNumber_of_ne {cs : List Char} (h : c ≠ '-') :
    readNumber (c :: cs) = readUnsigned false (c :: cs) := by
  unfold readNumber
  split
  next negative unsigned heq =>
    split at heq
    · next hcs => exact (h (List.cons.inj hcs).1).elim
    · cases heq
      rfl

theorem readUnsigned_append (hd : d.Proper) (hrest : EndsNumber rest) :
    readUnsigned d.negative
      (d.whole ++ (d.renderFraction ++ (DecimalText.renderExponent d.exponent ++ rest))) =
        some (d, rest) := by
  have htail := endsNumber_exponent d.exponent hrest
  have hfraction := head_renderFraction d fun c hc => (htail c hc).1
  rw [readUnsigned, readWhole_append hd hfraction]
  simp only [Option.bind_eq_bind, Option.bind_some, readFraction_append hd htail,
    readPower_append d.exponent hrest]
  rfl

/-- A proper number is read as it was written. -/
theorem readNumber_render (hd : d.Proper) (hrest : EndsNumber rest) :
    readNumber (d.render ++ rest) = some (d, rest) := by
  have hrender : d.render ++ rest = (if d.negative then ['-'] else []) ++
      (d.whole ++ (d.renderFraction ++ (DecimalText.renderExponent d.exponent ++ rest))) := by
    simp only [DecimalText.render, DecimalText.renderFraction, List.append_assoc]
  rw [hrender, ← readUnsigned_append hd hrest]
  cases d.negative with
  | true => exact readNumber_minus _
  | false =>
    obtain ⟨c, cs, hcs⟩ := List.exists_cons_of_ne_nil hd.whole.1
    have hminus := (hd.whole.not_sign c (by rw [hcs]; rfl)).1
    rw [if_neg Bool.false_ne_true, List.nil_append, hcs, List.cons_append]
    exact readNumber_of_ne hminus

/-- A number begins with a minus or a digit. -/
theorem head_render (hd : d.Proper) :
    ∃ c cs, d.render = c :: cs ∧ (c = '-' ∨ c.isDigit = true) := by
  obtain ⟨c, cs, hcs⟩ := List.exists_cons_of_ne_nil hd.whole.1
  unfold DecimalText.render
  cases d.negative with
  | true => exact ⟨'-', _, rfl, .inl rfl⟩
  | false =>
    rw [hcs]
    exact ⟨c, _, rfl, .inr (hd.whole.2 c (hcs ▸ List.mem_cons_self))⟩

/-! ### Writing -/

theorem head_toDigits {n : Nat} (h : n ≠ 0) : (Nat.toDigits 10 n).head? ≠ some '0' := by
  induction n using Nat.strong_induction_on with
  | _ n ih =>
    by_cases hlt : n < 10
    · rw [Nat.toDigits_of_lt_base hlt]
      interval_cases n <;> simp at h ⊢
    · have hle : 10 ≤ n := Nat.le_of_not_lt hlt
      rw [Nat.toDigits_of_base_le (by decide) hle,
        List.head?_append_of_ne_nil _ Nat.toDigits_ne_nil]
      exact ih (n / 10) (by omega) (by omega)

theorem DecimalText.proper_ofInt (n : Int) : (DecimalText.ofInt n).Proper where
  whole := areDigits_toDigits _
  leading := by
    intro hhead
    by_cases h : n.natAbs = 0
    · rw [ofInt, h, Nat.toDigits_zero]
      exact Nat.le_refl 1
    · exact (head_toDigits h hhead).elim
  fraction := List.forall_mem_nil _

namespace RoundingInterval

variable {i : RoundingInterval} {tie : Tie} {n : Nat}

theorem holds_zero (h : 0 < i.lower) : i.holds 0 = false := by
  unfold holds
  rw [Nat.zero_mul]
  split_ifs
  · rw [decide_eq_false (Nat.not_le.2 h), Bool.false_and]
  · rw [decide_eq_false (Nat.not_lt_zero _), Bool.false_and]

/-- The better point is the one above the value, or the one below it if that lies in the
interval. -/
theorem of_neighbour? (h : i.neighbour? tie = some n) :
    n = i.value / i.den + 1 ∨ n = i.value / i.den ∧ i.holds n = true := by
  unfold neighbour? at h
  dsimp only at h
  generalize i.value / i.den = m at h ⊢
  split at h
  next hbelow _ =>
    have heither : m + 1 = n ∨ m = n := by
      cases tie <;> dsimp only at h <;> split_ifs at h <;> obtain rfl := Option.some.inj h <;> simp
    rcases heither with rfl | rfl
    · exact .inl rfl
    · exact .inr ⟨rfl, hbelow⟩
  next hbelow _ =>
    obtain rfl := Option.some.inj h
    exact .inr ⟨rfl, hbelow⟩
  next =>
    obtain rfl := Option.some.inj h
    exact .inl rfl
  next => cases h

theorem neighbour?_ne_zero (hlower : 0 < i.lower) (h : i.neighbour? tie = some n) : n ≠ 0 := by
  rintro rfl
  rcases of_neighbour? h with habove | ⟨-, hholds⟩
  · exact (Nat.succ_ne_zero _ habove.symm).elim
  · exact Bool.false_ne_true ((holds_zero hlower).symm.trans hholds)

theorem onGrid_lower (h : 0 < i.lower) (g : Int) : 0 < (i.onGrid g).lower := by
  unfold onGrid
  split_ifs
  · exact h
  · exact Nat.mul_pos h (Nat.pow_pos (by decide))

theorem search_digits (hlower : 0 < i.lower) (magnitude : Int) (fuel : Nat) :
    (i.search tie magnitude n fuel).digits ≠ 0 ∨ i.search tie magnitude n fuel = ⟨0, 0⟩ := by
  induction fuel generalizing n with
  | zero => exact .inr rfl
  | succ fuel ih =>
    rw [search]
    cases hhit : (i.onGrid (magnitude - n)).neighbour? tie with
    | some digits => exact .inl (neighbour?_ne_zero (onGrid_lower hlower _) hhit)
    | none => exact ih

end RoundingInterval

theorem DecimalDigits.dropZeros_ne_zero {d : DecimalDigits} (h : d.digits ≠ 0) (fuel : Nat) :
    (dropZeros fuel d).digits ≠ 0 := by
  induction fuel generalizing d with
  | zero => exact h
  | succ fuel ih =>
    rw [dropZeros]
    split_ifs with hzero
    · refine ih ?_
      dsimp only
      omega
    · exact h

theorem Binary64.interval_lower {x : Binary64} (h : x.significand ≠ 0) : 0 < x.interval.lower := by
  unfold interval
  dsimp only
  rw [Nat.shiftLeft_eq]
  refine Nat.mul_pos ?_ (Nat.two_pow_pos _)
  split_ifs <;> omega

/-- The shortest digits of a number are not zero, unless they stand for zero; if none were found,
they stand at a power that is too large for plain notation. -/
theorem Binary64.shortest_digits (x : Binary64) (tie : Tie) :
    (x.shortest tie).digits ≠ 0 ∨ x.shortest tie = ⟨0, 0⟩ ∨ x.shortest tie = ⟨0, 17⟩ := by
  unfold shortest
  split_ifs with h
  · exact .inr (.inl rfl)
  · rcases RoundingInterval.search_digits (interval_lower h) x.interval.magnitude 17 with
      hne | hnone
    · exact .inl (DecimalDigits.dropZeros_ne_zero hne 17)
    · rw [hnone]
      exact .inr (.inr rfl)

namespace DecimalFormat

variable {f : DecimalFormat} {d : DecimalDigits} {negative : Bool}

theorem areDigits_text (d : DecimalDigits) : AreDigits d.text := areDigits_toDigits d.digits

theorem text_of_zero (h : d.digits = 0) : d.text = ['0'] := by
  rw [DecimalDigits.text, h, Nat.toDigits_zero]

/-- The digits with zeros in front, so that one or more of them stand before that many others. -/
def padded (d : DecimalDigits) (places : Nat) : List Char :=
  List.replicate (places + 1 - d.text.length) '0' ++ d.text

theorem length_padded (d : DecimalDigits) (places : Nat) :
    (padded d places).length = places + 1 - d.text.length + d.text.length := by
  rw [padded, List.length_append, List.length_replicate]

theorem isDigit_of_mem_padded {places : Nat} (h : c ∈ padded d places) : c.isDigit = true := by
  rcases List.mem_append.1 h with hzero | htext
  · rw [List.eq_of_mem_replicate hzero]
    rfl
  · exact (areDigits_text d).2 c htext

theorem proper_padded (d : DecimalDigits) {places : Nat} (hplaces : 0 < places) :
    (⟨negative, (padded d places).take ((padded d places).length - places),
      (padded d places).drop ((padded d places).length - places), none⟩ : DecimalText).Proper := by
  have hlength := length_padded d places
  refine ⟨⟨?_, fun c hc => isDigit_of_mem_padded (List.mem_of_mem_take hc)⟩, ?_,
    fun c hc => isDigit_of_mem_padded (List.mem_of_mem_drop hc)⟩
  · refine List.ne_nil_of_length_pos ?_
    rw [List.length_take]
    omega
  · intro hhead
    rw [List.length_take]
    by_cases hshort : d.text.length ≤ places
    · omega
    · -- nothing is put in front of the digits, which are more than one
      have hnone : padded d places = d.text := by
        rw [padded, Nat.sub_eq_zero_of_le (Nat.lt_of_not_le hshort)]
        rfl
      rw [List.head?_take, if_neg (by omega), hnone] at hhead
      refine (head_toDigits (fun hzero => ?_) hhead).elim
      rw [text_of_zero hzero, List.length_singleton] at hshort
      omega

/-- Digits with zeros behind them, or with a point among them. -/
theorem proper_layOut (hfraction : ∀ c ∈ f.integralFraction, c.isDigit = true)
    (hzero : d.digits = 0 → d.exponent ≤ 0) : (f.layOut negative d).Proper := by
  unfold layOut
  split_ifs with hexponent
  · refine ⟨⟨List.append_ne_nil_of_left_ne_nil (areDigits_text d).1 _, ?_⟩, ?_, hfraction⟩
    · refine List.forall_mem_append.2 ⟨(areDigits_text d).2, fun c hc => ?_⟩
      rw [List.eq_of_mem_replicate hc]
      rfl
    · intro hhead
      by_cases h : d.digits = 0
      · have hnone : d.exponent.toNat = 0 := by
          have hle := hzero h
          omega
        rw [hnone, text_of_zero h]
        exact Nat.le_refl 1
      · rw [List.head?_append_of_ne_nil _ (areDigits_text d).1] at hhead
        exact (head_toDigits h hhead).elim
  · exact proper_padded d (by omega)

theorem proper_layOutScientific (d : DecimalDigits) : (layOutScientific negative d).Proper where
  whole := by
    refine ⟨?_, fun c hc => (areDigits_text d).2 c (List.mem_of_mem_take hc)⟩
    rw [layOutScientific, Ne, List.take_eq_nil_iff, not_or]
    exact ⟨Nat.one_ne_zero, (areDigits_text d).1⟩
  leading := fun _ => List.length_take_le 1 _
  fraction := fun c hc => (areDigits_text d).2 c (List.mem_of_mem_drop hc)

/-- A number is written properly if large powers are written out as such. -/
theorem proper_write (hfraction : ∀ c ∈ f.integralFraction, c.isDigit = true)
    (hlarge : f.positional 17 = false) (x : Binary64) : (f.write x).Proper := by
  unfold write
  dsimp only
  split_ifs with hpositional
  · refine proper_layOut hfraction fun hzero => ?_
    rcases x.shortest_digits f.tie with hne | hnone | hnone
    · exact (hne hzero).elim
    · rw [hnone]
    · rw [hnone] at hpositional
      exact (Bool.false_ne_true (hlarge.symm.trans hpositional)).elim
  · exact proper_layOutScientific _

end DecimalFormat

end DerivativeLexer
