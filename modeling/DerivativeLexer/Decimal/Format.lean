import DerivativeLexer.Decimal.Shortest

/-! # Written decimals

A written decimal has digits before and behind the point and perhaps a power of ten. A format
lays the shortest digits of a number out as such a text: it says which numbers are written with
the point in its place and which with a power of ten, and what stands behind the point of a
number without a fraction. -/

namespace DerivativeLexer

/-- A decimal as it is written: digits before the point, digits behind it, and a power of ten.
Without digits behind it there is no point. -/
structure DecimalText where
  negative : Bool
  whole : List Char
  fraction : List Char
  exponent : Option Int
deriving DecidableEq

namespace DecimalText

def renderExponent : Option Int → List Char
  | none => []
  | some e => 'e' :: (if e < 0 then '-' else '+') :: Nat.toDigits 10 e.natAbs

def render (d : DecimalText) : List Char :=
  (if d.negative then ['-'] else []) ++ d.whole ++
    (if d.fraction.isEmpty then [] else '.' :: d.fraction) ++ renderExponent d.exponent

def ofInt (n : Int) : DecimalText := ⟨n < 0, Nat.toDigits 10 n.natAbs, [], none⟩

end DecimalText

structure DecimalFormat where
  /-- A number whose first digit stands at one of these powers of ten is written without one. -/
  positional : Int → Bool
  /-- What stands behind the point of a number without a fraction. -/
  integralFraction : List Char
  tie : Tie

namespace DecimalFormat

def layOut (f : DecimalFormat) (negative : Bool) (d : DecimalDigits) : DecimalText :=
  if 0 ≤ d.exponent then
    ⟨negative, d.text ++ List.replicate d.exponent.toNat '0', f.integralFraction, none⟩
  else
    let places := (-d.exponent).toNat
    let padded := List.replicate (places + 1 - d.text.length) '0' ++ d.text
    ⟨negative, padded.take (padded.length - places), padded.drop (padded.length - places), none⟩

def layOutScientific (negative : Bool) (d : DecimalDigits) : DecimalText :=
  ⟨negative, d.text.take 1, d.text.drop 1, some d.leading⟩

def write (f : DecimalFormat) (x : Binary64) : DecimalText :=
  let d := x.shortest f.tie
  if f.positional d.leading then f.layOut x.isNegative d else layOutScientific x.isNegative d

end DecimalFormat

/-- Plain notation: the point is always in its place, an integral number has none, and a tie goes
up. -/
def plainDecimal : DecimalFormat := ⟨fun _ => true, [], .up⟩

/-- A number in plain notation; the ones that are not finite have names. -/
def Binary64.render (x : Binary64) : String :=
  if x.isNaN then "NaN"
  else if x.isInfinite then (if x.isNegative then "-inf" else "inf")
  else String.ofList (plainDecimal.write x).render

end DerivativeLexer
