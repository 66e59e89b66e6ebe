import DerivativeLexer.Decimal.Numeral
import DerivativeLexer.Json.Basic

/-! # Numbers of data

A number without point and power is an integer if it fits 64 bits. Any number can be read as a
binary number of 64 bits: its leading digits, as many as fit 64 bits, are rounded to a binary
number, which is then multiplied or divided by a power of ten that is rounded itself. The result
may therefore differ from the nearest number in its last bit. A number that becomes infinite is
refused. -/

namespace DerivativeLexer

def significandBound : Nat := 0x10000000000000000

def exponentBound : Nat := 0x80000000

/-- Appends digits to a significand as long as it fits; the digits that do not fit are left. -/
def accumulate (n : Nat) : List Char → Nat × List Char
  | [] => (n, [])
  | d :: rest =>
    let next := 10 * n + digitsValue [d]
    if next < significandBound then accumulate next rest else (n, d :: rest)

def tenPower (n : Nat) : Binary64 := .ofNat (tenTo n)

/-- A number times a power of ten; an infinity is refused. Powers below the smallest one are
divided off step by step. -/
def scaleByTen (x : Binary64) (e : Int) : Nat → Option Binary64
  | 0 => some x
  | steps + 1 =>
    if 0 ≤ e && e ≤ 308 then
      let y := x.mul (tenPower e.toNat)
      if y.isFinite then some y else none
    else if e < 0 && -308 ≤ e then some (x.div (tenPower (-e).toNat))
    else if x.significand = 0 then some x
    else if 0 ≤ e then none
    else scaleByTen (x.div (tenPower 308)) (e + 308) steps

namespace DecimalText

/-- The integer that is written, if it is one of 64 bits. A zero with a minus is none. -/
def integer? (d : DecimalText) : Option Int :=
  if !d.fraction.isEmpty || d.exponent.isSome then none
  else
    let n := digitsValue d.whole
    if d.negative then (if n = 0 || -(n : Int) < minInteger then none else some (-(n : Int)))
    else if n < significandBound then some n
    else none

/-- The significand, and the power of ten that belongs to it before the written one. -/
def significand (d : DecimalText) : Nat × Int :=
  let (n, whole) := accumulate 0 d.whole
  let (m, fraction) := accumulate n d.fraction
  (m, (whole.length : Int) - ((d.fraction.length : Int) - fraction.length))

def magnitude? (d : DecimalText) : Option Binary64 :=
  let (n, shift) := d.significand
  let written := d.exponent.getD 0
  if exponentBound ≤ written.natAbs then
    if n ≠ 0 && 0 < written then none else some (.zero false)
  else
    let e := max (-(exponentBound : Int)) (min (exponentBound - 1) (shift + written))
    scaleByTen (.ofNat n) e 4

def binary? (d : DecimalText) : Option Binary64 :=
  d.magnitude?.map fun x => if d.negative then x.neg else x

end DecimalText

end DerivativeLexer
