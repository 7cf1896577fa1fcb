import BearerAuth.Clock

/-!
# Binary floating-point numbers of 64 bits

A finite number of the IEEE 754 binary64 format, held as a sign, a
significand below `2 ^ 53` and an exponent of two.  Reading a decimal numeral
rounds its exact value to the nearest such number, ties to the even
significand, in integer arithmetic throughout.
-/

namespace BearerAuth

/-- The number `± significand * 2 ^ exponent`.  The exponent is at least
-1074, and the significand is at least `2 ^ 52` unless the exponent is
-1074. -/
structure Binary64 where
  negative : Bool
  significand : Nat
  exponent : Int
  deriving DecidableEq, Repr

namespace Binary64

def minExponent : Int := -1074

def maxExponent : Int := 971

/-! ## Fractions -/

/-- A positive fraction, used for exact values on the way to a rounded
one. -/
structure Fraction where
  num : Nat
  den : Nat
  deriving DecidableEq, Repr

namespace Fraction

/-- A natural number times a power of `base`. -/
def scaled (n base : Nat) (power : Int) : Fraction :=
  match power with
  | .ofNat p => ⟨n * Nat.pow base p, 1⟩
  | .negSucc p => ⟨n, Nat.pow base (p + 1)⟩

/-- The fraction divided by a power of `base`. -/
def divPow (x : Fraction) (base : Nat) (power : Int) : Fraction :=
  match power with
  | .ofNat p => ⟨x.num, x.den * Nat.pow base p⟩
  | .negSucc p => ⟨x.num * Nat.pow base (p + 1), x.den⟩

/-- The nearest natural number, ties to the even one. -/
def round (x : Fraction) : Nat :=
  let floor := x.num / x.den
  let twice := 2 * (x.num % x.den)
  if twice < x.den then floor
  else if x.den < twice then floor + 1
  else if floor % 2 = 0 then floor else floor + 1

def isWhole (x : Fraction) : Bool := x.num % x.den == 0

/-- The greatest `e` with `2 ^ e ≤ x`, for a positive `x`: the difference of
the logarithms of numerator and denominator, or one less. -/
def log2 (x : Fraction) : Int :=
  let estimate : Int := (Nat.log2 x.num : Int) - (Nat.log2 x.den : Int)
  let scaled := x.divPow 2 estimate
  if scaled.den ≤ scaled.num then estimate else estimate - 1

end Fraction

/-! ## Reading decimals -/

/-- A positive fraction rounded to 53 significant bits, whatever its
magnitude, as a significand and an exponent. -/
def roundUnbounded (x : Fraction) : Nat × Int :=
  let exponent := x.log2 - 52
  let significand := (x.divPow 2 exponent).round
  if significand = Nat.pow 2 53 then (Nat.pow 2 52, exponent + 1) else (significand, exponent)

/-- The number nearest to a positive fraction.  None when it is beyond the
greatest finite number, and none when it is below the least normal number and
not exact: then digits of the numeral would be lost without notice. -/
def ofFraction (negative : Bool) (x : Fraction) : Option Binary64 :=
  let (significand, exponent) := roundUnbounded x
  if maxExponent < exponent then none
  else if minExponent ≤ exponent then some ⟨negative, significand, exponent⟩
  else
    let shifted := x.divPow 2 minExponent
    if shifted.isWhole then some ⟨negative, shifted.round, minExponent⟩ else none

/-- The number nearest to `± digits * 10 ^ power`.  A numeral whose value
lies far outside the range of the format is refused by its magnitude alone,
so no power of ten beyond the length of the digits plus 400 is computed. -/
def ofDecimal (negative : Bool) (digits : Nat) (power : Int) : Option Binary64 :=
  if digits = 0 then some ⟨negative, 0, minExponent⟩
  else
    let length : Int := (Nat.toDigits 10 digits).length
    if length + power < -400 then none
    else if 400 < length + power then none
    else ofFraction negative (Fraction.scaled digits 10 power)

/-! ## Whole parts -/

def floor (x : Binary64) : Int :=
  let magnitude := Fraction.scaled x.significand 2 x.exponent
  let numerator : Int := if x.negative then -magnitude.num else magnitude.num
  Int.fdiv numerator magnitude.den

def atLeastOne (x : Binary64) : Bool := 1 ≤ x.floor

end Binary64

end BearerAuth
