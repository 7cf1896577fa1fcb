import BearerAuth.Binary64

/-!
# Decimal text of floating-point numbers

Numbers are written with 17 significant digits, the least count that tells
any two of them apart, trailing zeros dropped.  Numbers from `10 ^ -4` up to
below `10 ^ 17` are written positionally, all others with an exponent of at
least two digits.
-/

namespace BearerAuth

namespace Binary64

def precision : Nat := 17

/-- The least decimal exponent that is written positionally. -/
def leastPositional : Int := -4

/-- Whether `10 ^ power` is at most the fraction. -/
def Fraction.reaches (x : Fraction) (power : Int) : Bool :=
  let scaled := x.divPow 10 power
  scaled.den ≤ scaled.num

/-- The greatest `e` with `10 ^ e ≤ x`: the difference of the digit counts of
numerator and denominator, or one less. -/
def Fraction.log10 (x : Fraction) : Int :=
  let estimate : Int :=
    ((Nat.toDigits 10 x.num).length : Int) - ((Nat.toDigits 10 x.den).length : Int)
  if x.reaches estimate then estimate else estimate - 1

/-- The significant digits of a positive fraction, as a number of `precision`
digits, and the decimal exponent of the first of them. -/
def decimal (x : Fraction) : Nat × Int :=
  let exponent := x.log10
  let digits := (x.divPow 10 (exponent - (precision - 1 : Nat))).round
  if digits = Nat.pow 10 precision then (Nat.pow 10 (precision - 1), exponent + 1)
  else (digits, exponent)

def dropTrailingZeros (digits : Bytes) : Bytes :=
  (digits.reverse.dropWhile (· == Ascii.zero)).reverse

/-- A whole part and the digits after the point, the point only when there
are any. -/
def withPoint (whole fraction : Bytes) : Bytes :=
  let kept := dropTrailingZeros fraction
  if kept.isEmpty then whole else whole ++ Ascii.point :: kept

/-- An exponent with its sign and at least two digits. -/
def exponentText (exponent : Int) : Bytes :=
  let digits := Bytes.ofNat exponent.natAbs
  let sign : UInt8 := if exponent < 0 then Ascii.minus else Ascii.plus
  utf8 "e" ++ sign :: (if digits.length < 2 then Ascii.zero :: digits else digits)

/-- The text of a positive number from its digits and the exponent of the
first of them. -/
def layout (digits : Bytes) (exponent : Int) : Bytes :=
  if exponent < leastPositional ∨ (precision : Int) ≤ exponent then
    withPoint (digits.take 1) (digits.drop 1) ++ exponentText exponent
  else if exponent < 0 then
    withPoint [Ascii.zero] (List.replicate (-exponent - 1).toNat Ascii.zero ++ digits)
  else
    withPoint (digits.take (exponent.toNat + 1)) (digits.drop (exponent.toNat + 1))

/-- The text of a number; zero keeps its sign. -/
def write (x : Binary64) : Bytes :=
  let body :=
    if x.significand = 0 then [Ascii.zero]
    else
      let (digits, exponent) := decimal (Fraction.scaled x.significand 2 x.exponent)
      layout (Bytes.ofNat digits) exponent
  if x.negative then Ascii.minus :: body else body

end Binary64

end BearerAuth
