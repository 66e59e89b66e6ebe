import DerivativeLexer.Decimal.Binary64

/-! # Numerals

Reading integers and decimals from their text. An integer must fit 64 bits with a sign; why it
does not is a fault of its own. A decimal is rounded to the nearest number of the 64-bit format
and may become an infinity. -/

namespace DerivativeLexer

def digitsValue (ds : List Char) : Nat :=
  ds.foldl (fun n d => 10 * n + (d.toNat - '0'.toNat)) 0

/-- Takes a sign off the front; `true` means a minus. -/
def splitSign : List Char → Bool × List Char
  | '-' :: rest => (true, rest)
  | '+' :: rest => (false, rest)
  | cs => (false, cs)

inductive IntegerFault where
  | empty
  | invalidDigit
  | tooLarge
  | tooSmall
deriving DecidableEq

def IntegerFault.message : IntegerFault → String
  | empty => "cannot parse integer from empty string"
  | invalidDigit => "invalid digit found in string"
  | tooLarge => "number too large to fit in target type"
  | tooSmall => "number too small to fit in target type"

def minInteger : Int := -0x8000000000000000

def maxInteger : Int := 0x7fffffffffffffff

def fitInteger (n : Int) : Except IntegerFault Int64 :=
  if n < minInteger then .error .tooSmall
  else if maxInteger < n then .error .tooLarge
  else .ok (.ofInt n)

/-- A sign, if there is one, and at least one digit. -/
def readInteger (text : List Char) : Except IntegerFault Int64 :=
  let (negative, digits) := splitSign text
  if text.isEmpty then .error .empty
  else if digits.isEmpty || !digits.all Char.isDigit then .error .invalidDigit
  else fitInteger (if negative then -(digitsValue digits : Int) else digitsValue digits)

def readExponent? : List Char → Option Int
  | [] => some 0
  | c :: rest =>
    let (negative, digits) := splitSign rest
    if c != 'e' && c != 'E' then none
    else if digits.isEmpty || !digits.all Char.isDigit then none
    else some (if negative then -(digitsValue digits : Int) else digitsValue digits)

def readDecimal? (text : List Char) : Option Binary64 :=
  let (negative, unsigned) := splitSign text
  let whole := unsigned.takeWhile Char.isDigit
  let rest := unsigned.dropWhile Char.isDigit
  let (fraction, tail) :=
    match rest with
    | '.' :: r => (r.takeWhile Char.isDigit, r.dropWhile Char.isDigit)
    | r => ([], r)
  if whole.isEmpty && fraction.isEmpty then none
  else
    (readExponent? tail).map fun exponent =>
      .ofDecimal negative (digitsValue (whole ++ fraction)) (exponent - fraction.length)

end DerivativeLexer
