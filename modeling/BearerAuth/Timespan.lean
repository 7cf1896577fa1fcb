import BearerAuth.Clock

/-!
# Texts of time spans

A span is written as a sequence of numbers with units, such as `1h30m` or
`-1.5ms`.  Reading works in exact arithmetic: the components are added as
fractions and the sum is rounded once, halves away from zero.  Printing picks
the largest of seconds, milliseconds, microseconds and nanoseconds that divides
the span.
-/

namespace BearerAuth

namespace Timespan

/-! ## Units -/

/-- The spellings of the units with their lengths in nanoseconds, long
spellings before short ones, so the first that fits is the longest.  The two
of three bytes are the micro sign and the Greek letter mu, each followed by
`s`. -/
def spellings : List (Bytes × Nat) :=
  [(utf8 "\u00b5s", 1000), (utf8 "\u03bcs", 1000),
   (utf8 "ns", 1), (utf8 "us", 1000), (utf8 "ms", 1000000),
   (utf8 "s", 1000000000), (utf8 "m", 60000000000), (utf8 "h", 3600000000000)]

/-- The unit that a text starts with, in nanoseconds, and what follows it. -/
def unit? (s : Bytes) : Option (Nat × Bytes) :=
  (spellings.find? fun entry => entry.1.isPrefixOf s).map fun entry =>
    (entry.2, s.drop entry.1.length)

/-! ## Components -/

/-- One number with its unit: `digits / 10 ^ places` times `nanos`
nanoseconds. -/
structure Component where
  digits : Nat
  places : Nat
  nanos : Nat
  deriving DecidableEq, Repr

/-- The component that a text starts with and what follows it: digits, then
an optional point with further digits, then a unit.  At least one digit must
stand on either side of the point. -/
def component? (s : Bytes) : Option (Component × Bytes) :=
  let whole := s.takeWhile Bytes.isDigit
  let rest := s.dropWhile Bytes.isDigit
  let fraction := match rest with
    | Ascii.point :: after => after.takeWhile Bytes.isDigit
    | _ => []
  let rest := match rest with
    | Ascii.point :: after => after.dropWhile Bytes.isDigit
    | _ => rest
  if whole.isEmpty && fraction.isEmpty then none
  else (unit? rest).map fun unit =>
    ({ digits := Bytes.digitsValue (whole ++ fraction)
       places := fraction.length
       nanos := unit.1 }, unit.2)

/-- All components of a text, one after the other with nothing between.  Each
takes at least two bytes, so the length of the text bounds their number. -/
def components? : Nat → Bytes → Option (List Component)
  | _, [] => some []
  | 0, _ :: _ => none
  | n + 1, s => match component? s with
    | none => none
    | some (first, rest) => (components? n rest).map (first :: ·)

/-! ## Sums -/

/-- The sum of components, in units of `10 ^ -places` nanoseconds, for a
number of places that no component exceeds. -/
def scaledSum (places : Nat) (parts : List Component) : Nat :=
  parts.foldr (fun c sum => c.digits * c.nanos * Nat.pow 10 (places - c.places) + sum) 0

/-- The number of decimal places that holds every component exactly. -/
def commonPlaces (parts : List Component) : Nat :=
  parts.foldl (fun places c => max places c.places) 0

/-- The sum of components in nanoseconds, a half rounded up, unless the exact
sum is more than a register holds. -/
def total? (parts : List Component) : Option Nat :=
  let scale := Nat.pow 10 (commonPlaces parts)
  let sum := scaledSum (commonPlaces parts) parts
  if sum ≤ Clock.top.toNat * scale then some ((2 * sum + scale) / (2 * scale)) else none

/-! ## Reading and printing -/

/-- Whether a text starts with a minus sign, and the text without its sign. -/
def sign (s : Bytes) : Bool × Bytes :=
  match s with
  | Ascii.minus :: rest => (true, rest)
  | Ascii.plus :: rest => (false, rest)
  | _ => (false, s)

/-- The span that a text stands for: an optional sign, then `0` alone or at
least one component.  The sum is exact here.  Where it is taken in `long double`
instead, with 64 bits of significand, the two differ only as far as those round:
on sums halfway between two nanoseconds, such as `0.0005us`, and at the end of
the range, such as `9223372036854775807.25ns`. -/
def parse (s : Bytes) : Option Span :=
  let (negative, body) := sign s
  if body = utf8 "0" then some 0
  else if body.isEmpty then none
  else match components? body.length body with
    | none => none
    | some parts => (total? parts).map fun n => if negative then -(n : Int) else (n : Int)

/-- The text of a span: a count of the largest unit up to the second that
divides it, `0` in nanoseconds. -/
def format (n : Span) : Bytes :=
  if n ≠ 0 ∧ n % 1000000000 = 0 then Bytes.ofInt (n / 1000000000) ++ utf8 "s"
  else if n ≠ 0 ∧ n % 1000000 = 0 then Bytes.ofInt (n / 1000000) ++ utf8 "ms"
  else if n ≠ 0 ∧ n % 1000 = 0 then Bytes.ofInt (n / 1000) ++ utf8 "us"
  else Bytes.ofInt n ++ utf8 "ns"

end Timespan

end BearerAuth
