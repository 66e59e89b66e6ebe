/-! # Binary floating-point numbers of 64 bits

A decimal literal stands for a number in the 64-bit binary interchange format. A number is kept
as its bits: a sign, eleven bits of exponent and 52 bits of fraction. All arithmetic here is
exact arithmetic on natural numbers, rounded once at its end to the nearest number of the format;
of two equally near ones the one with the even significand is taken. -/

namespace DerivativeLexer

/-- Quotient rounded to the nearest natural number, a half to the even one. -/
def roundQuotient (num den : Nat) : Nat :=
  let q := num / den
  let r := num % den
  if 2 * r < den then q
  else if den < 2 * r then q + 1
  else if q % 2 = 0 then q else q + 1

theorem roundQuotient_near (num den : Nat) (h : 0 < den) :
    2 * (roundQuotient num den * den) ≤ 2 * num + den ∧
      2 * num ≤ 2 * (roundQuotient num den * den) + den := by
  have hdiv : den * (num / den) + num % den = num := Nat.div_add_mod num den
  have hlt : num % den < den := Nat.mod_lt num h
  have hcomm : num / den * den = den * (num / den) := Nat.mul_comm _ _
  have hsucc : (num / den + 1) * den = den * (num / den) + den := by
    rw [Nat.add_mul, Nat.one_mul, hcomm]
  simp only [roundQuotient]
  split
  · omega
  · split
    · omega
    · split <;> omega

def tenTo (n : Nat) : Nat := Nat.pow 10 n

structure Binary64 where
  bits : UInt64
deriving DecidableEq

namespace Binary64

def signWeight : Nat := 0x8000000000000000

/-- Weight of the lowest bit of the exponent, behind 52 bits of fraction; also the significand of
a power of two. -/
def unit : Nat := 0x10000000000000

def topExponent : Nat := 2047

def isNegative (x : Binary64) : Bool := signWeight ≤ x.bits.toNat

def magnitudeBits (x : Binary64) : Nat := x.bits.toNat % signWeight

def exponentField (x : Binary64) : Nat := x.magnitudeBits / unit

def fraction (x : Binary64) : Nat := x.magnitudeBits % unit

def isFinite (x : Binary64) : Bool := x.exponentField < topExponent

def isInfinite (x : Binary64) : Bool := x.magnitudeBits == topExponent * unit

def isNaN (x : Binary64) : Bool := topExponent * unit < x.magnitudeBits

/-- The finite number is `significand * 2 ^ (scale - 1074)`, up to its sign. -/
def significand (x : Binary64) : Nat :=
  if x.exponentField = 0 then x.fraction else x.fraction + unit

def scale (x : Binary64) : Nat := x.exponentField - 1

/-- The number is a power of two whose neighbour below is only half as far as the one above. -/
def hasCloseLower (x : Binary64) : Bool := x.fraction == 0 && 1 < x.exponentField

def numerator (x : Binary64) : Nat := x.significand <<< x.scale

def ofMagnitude (negative : Bool) (magnitude : Nat) : Binary64 :=
  ⟨.ofNat (if negative then signWeight + magnitude else magnitude)⟩

def zero (negative : Bool) : Binary64 := ofMagnitude negative 0

def infinity (negative : Bool) : Binary64 := ofMagnitude negative (topExponent * unit)

/-- How many powers of two above the smallest unit the last bit of `num / den` stands: the
significand then has 53 bits, or fewer at the bottom of the format. -/
def scaleOf (num den : Nat) : Nat :=
  let top := 1074 + num.log2 - den.log2
  if num <<< 1074 < den <<< top then top - 53 else top - 52

/-- The number of the format nearest to `num / den`; an infinity if that lies beyond the largest
finite number. -/
def ofRatio (negative : Bool) (num den : Nat) : Binary64 :=
  if num = 0 then zero negative
  else
    let s := scaleOf num den
    let m := roundQuotient (num <<< 1074) (den <<< s)
    let magnitude := s * unit + m
    if topExponent * unit ≤ magnitude then infinity negative else ofMagnitude negative magnitude

def ofNat (n : Nat) : Binary64 := ofRatio false n 1

def mul (x y : Binary64) : Binary64 :=
  ofRatio (x.isNegative != y.isNegative) (x.numerator * y.numerator) (1 <<< 2148)

def div (x y : Binary64) : Binary64 :=
  ofRatio (x.isNegative != y.isNegative) x.numerator y.numerator

def neg (x : Binary64) : Binary64 := ofMagnitude (!x.isNegative) x.magnitudeBits

/-- The number nearest to `digits * 10 ^ exponent`. A product that is certainly too large or too
small is not computed. -/
def ofDecimal (negative : Bool) (digits : Nat) (exponent : Int) : Binary64 :=
  if digits = 0 then zero negative
  else
    let length : Int := (Nat.toDigits 10 digits).length
    if 310 < length + exponent then infinity negative
    else if length + exponent < -330 then zero negative
    else if 0 ≤ exponent then ofRatio negative (digits * tenTo exponent.toNat) 1
    else ofRatio negative digits (tenTo (-exponent).toNat)

/-- Position in the total order of all bit patterns: negative numbers come first, in reverse
order of their size, and what is no number comes at either end. -/
def orderKey (x : Binary64) : Int :=
  if x.isNegative then -(x.magnitudeBits : Int) - 1 else x.magnitudeBits

theorem toNat_eq (x : Binary64) :
    x.bits.toNat = if x.isNegative then signWeight + x.magnitudeBits else x.magnitudeBits := by
  have hlt : x.bits.toNat < 2 ^ 64 := x.bits.toNat_lt
  unfold isNegative magnitudeBits signWeight
  by_cases h : 0x8000000000000000 ≤ x.bits.toNat
  · simp only [h, decide_true, if_true]
    omega
  · simp only [h, decide_false, Bool.false_eq_true, if_false]
    omega

theorem orderKey_injective {x y : Binary64} (h : x.orderKey = y.orderKey) : x = y := by
  have hx := x.toNat_eq
  have hy := y.toNat_eq
  have hbits : x.bits.toNat = y.bits.toNat := by
    unfold orderKey at h
    cases hxn : x.isNegative <;> cases hyn : y.isNegative <;>
      simp only [hxn, hyn, Bool.false_eq_true, if_false, if_true] at h hx hy <;> omega
  cases x; cases y
  simp only [mk.injEq]
  exact UInt64.toNat.inj hbits

end Binary64

end DerivativeLexer
