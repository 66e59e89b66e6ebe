import DerivativeLexer.Decimal.Binary64

/-! # Shortest decimal digits

A binary number is written with the fewest decimal digits that read back as the same number, and
among those with the nearest. For one digit, two digits and so on the two neighbours of the
number on that decimal grid are tested against the interval of reals that round to it; the first
grid with a hit decides the number of digits. Everything is exact arithmetic on natural numbers. -/

namespace DerivativeLexer

inductive Tie where
  | up
  | even
deriving DecidableEq

structure DecimalDigits where
  digits : Nat
  exponent : Int
deriving DecidableEq

namespace DecimalDigits

/-- A trailing zero moves into the exponent; `fuel` bounds the number of zeros. -/
def dropZeros : Nat → DecimalDigits → DecimalDigits
  | 0, d => d
  | fuel + 1, d =>
    if d.digits % 10 = 0 then dropZeros fuel ⟨d.digits / 10, d.exponent + 1⟩ else d

def text (d : DecimalDigits) : List Char := Nat.toDigits 10 d.digits

def leading (d : DecimalDigits) : Int := d.exponent + (d.text.length : Int) - 1

end DecimalDigits

/-- A positive number between its two halfway points, as numerators over one denominator. -/
structure RoundingInterval where
  lower : Nat
  value : Nat
  upper : Nat
  den : Nat
  /-- The halfway points themselves round to the number. -/
  closed : Bool

def Binary64.interval (x : Binary64) : RoundingInterval :=
  let m := x.significand
  { lower := (if x.hasCloseLower then 4 * m - 1 else 4 * m - 2) <<< x.scale
    value := (4 * m) <<< x.scale
    upper := (4 * m + 2) <<< x.scale
    den := 4 <<< 1074
    closed := m % 2 == 0 }

namespace RoundingInterval

/-- The interval on the grid `10 ^ g`: the grid point `n` stands for `n * den`. -/
def onGrid (i : RoundingInterval) (g : Int) : RoundingInterval :=
  if 0 ≤ g then { i with den := i.den * tenTo g.toNat }
  else
    let p := tenTo (-g).toNat
    { i with lower := i.lower * p, value := i.value * p, upper := i.upper * p }

def holds (i : RoundingInterval) (n : Nat) : Bool :=
  if i.closed then i.lower ≤ n * i.den && n * i.den ≤ i.upper
  else i.lower < n * i.den && n * i.den < i.upper

/-- The better of the two grid points around the value, if one of them lies in the interval. -/
def neighbour? (i : RoundingInterval) (tie : Tie) : Option Nat :=
  let n := i.value / i.den
  match i.holds n, i.holds (n + 1) with
  | true, true =>
    let low := 2 * i.value
    let half := (2 * n + 1) * i.den
    if low < half then some n
    else if half < low then some (n + 1)
    else
      match tie with
      | .up => some (n + 1)
      | .even => some (if n % 2 = 0 then n else n + 1)
  | true, false => some n
  | false, true => some (n + 1)
  | false, false => none

/-- How many times a fraction below one is multiplied by ten to reach one; `fuel` bounds it. -/
def tenfoldsToOne (num den : Nat) : Nat → Nat
  | 0 => 0
  | fuel + 1 => if den ≤ num then 0 else 1 + tenfoldsToOne (num * 10) den fuel

def magnitude (i : RoundingInterval) : Int :=
  if i.den ≤ i.value then (Nat.toDigits 10 (i.value / i.den)).length
  else 1 - (tenfoldsToOne i.value i.den (i.den.log2 + 1) : Int)

/-- The first grid with a hit, from `n` digits on; seventeen digits always suffice. -/
def search (i : RoundingInterval) (tie : Tie) (magnitude : Int) (n : Nat) : Nat → DecimalDigits
  | 0 => ⟨0, 0⟩
  | fuel + 1 =>
    let g := magnitude - n
    match (i.onGrid g).neighbour? tie with
    | some digits => ⟨digits, g⟩
    | none => search i tie magnitude (n + 1) fuel

end RoundingInterval

/-- The fewest digits that read back as the finite number, the nearest of those; the sign is left
out. -/
def Binary64.shortest (x : Binary64) (tie : Tie) : DecimalDigits :=
  if x.significand = 0 then ⟨0, 0⟩
  else (x.interval.search tie x.interval.magnitude 1 17).dropZeros 17

end DerivativeLexer
