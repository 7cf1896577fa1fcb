import BearerAuth.Json.Reader
import Mathlib.Algebra.Group.Int.Defs

/-!
# The grammar of JSON texts

Which bytes make up a text, and the value that a text has: a relation between the two that knows
nothing of cursors and offsets.  The parts of a text are relations as well, one for each kind of
part, and what is put together from parts is their concatenation, with white space wherever it
may stand.

Arrays and objects are given over an arbitrary relation for the values within (`ValueOf`), so that
the depth of nesting is counted by a recursion of its own (`Value`): nothing is a value of depth
zero, and within a value of depth `d + 1` there are values of depth `d`.
-/

namespace BearerAuth

namespace Json

namespace Grammar

/-- White space, or nothing at all. -/
def Gap (text : Bytes) : Prop := ∀ b ∈ text, isGap b = true

/-! ## Numbers -/

def Digits (text : Bytes) : Prop := text ≠ [] ∧ ∀ b ∈ text, Bytes.isDigit b = true

/-- The sign of a numeral, and whether it is negative. -/
inductive Sign : Bytes → Bool → Prop
  | absent : Sign [] false
  | minus : Sign [Ascii.minus] true

inductive Fraction : Bytes → Option Bytes → Prop
  | absent : Fraction [] none
  | present {digits : Bytes} : Digits digits → Fraction (Ascii.point :: digits) (some digits)

/-- The sign of an exponent, and whether it is negative. -/
inductive ExponentSign : Bytes → Bool → Prop
  | absent : ExponentSign [] false
  | plus : ExponentSign [Ascii.plus] false
  | minus : ExponentSign [Ascii.minus] true

/-- The value of digits under a sign. -/
def signed (negative : Bool) (digits : Bytes) : Int :=
  if negative then -(Bytes.digitsValue digits : Int) else Bytes.digitsValue digits

inductive Exponent : Bytes → Option Int → Prop
  | absent : Exponent [] none
  | present {letter : UInt8} {sign digits : Bytes} {negative : Bool} :
      letter = 'e'.toUInt8 ∨ letter = 'E'.toUInt8 → ExponentSign sign negative → Digits digits →
      Exponent (letter :: (sign ++ digits)) (some (signed negative digits))

/-- The text of a numeral: leading zeros are digits like others. -/
inductive NumeralText : Bytes → Numeral → Prop
  | parts {sign whole point power : Bytes} {negative : Bool} {fraction : Option Bytes}
      {exponent : Option Int} :
      Sign sign negative → Digits whole → Fraction point fraction → Exponent power exponent →
      NumeralText (sign ++ (whole ++ (point ++ power))) ⟨negative, whole, fraction, exponent⟩

/-- The numeral is written as an integer and fits a register of 64 bits. -/
def IsInteger (numeral : Numeral) : Prop :=
  numeral.fraction = none ∧ numeral.exponent = none ∧
    -(2 ^ 63) ≤ signed numeral.negative numeral.whole ∧
    signed numeral.negative numeral.whole < 2 ^ 63

/-- A number: an integer when it is one, and otherwise a floating-point number that is in range. -/
inductive Number : Bytes → Json → Prop
  | integer {text : Bytes} {numeral : Numeral} :
      NumeralText text numeral → IsInteger numeral →
      Number text (.int (signed numeral.negative numeral.whole))
  | double {text : Bytes} {numeral : Numeral} {x : Binary64} :
      NumeralText text numeral → ¬ IsInteger numeral → numeral.double? = some x →
      Number text (.double x)

/-! ## Strings -/

/-- What a part of a string stands for: a byte, or a code. -/
inductive Glyph where
  | byte (b : UInt8)
  | code (code : Nat)
  deriving DecidableEq, Repr

/-- The letters that may stand behind a backslash, and what they stand for there. -/
def shortEscapes : List (UInt8 × UInt8) :=
  [(Ascii.quote, Ascii.quote), (Ascii.backslash, Ascii.backslash), (Ascii.slash, Ascii.slash),
   ('b'.toUInt8, 8), ('f'.toUInt8, 12), ('n'.toUInt8, Ascii.lineFeed),
   ('r'.toUInt8, Ascii.carriageReturn), ('t'.toUInt8, Ascii.tab)]

/-- Four hexadecimal digits, in either case. -/
inductive Code : Bytes → Nat → Prop
  | digits {d₁ d₂ d₃ d₄ : UInt8} {n₁ n₂ n₃ n₄ : Nat} :
      Bytes.hexDigit? d₁ = some n₁ → Bytes.hexDigit? d₂ = some n₂ →
      Bytes.hexDigit? d₃ = some n₃ → Bytes.hexDigit? d₄ = some n₄ →
      Code [d₁, d₂, d₃, d₄] (16 * (16 * (16 * n₁ + n₂) + n₃) + n₄)

/-- A part of a string: a byte that stands for itself, or an escape. -/
inductive Part : Bytes → Glyph → Prop
  | plain {b : UInt8} : 32 ≤ b → b ≠ Ascii.quote → b ≠ Ascii.backslash → Part [b] (.byte b)
  | short {letter b : UInt8} :
      (letter, b) ∈ shortEscapes → Part [Ascii.backslash, letter] (.byte b)
  | unicode {digits : Bytes} {code : Nat} :
      Code digits code → Part (Ascii.backslash :: 'u'.toUInt8 :: digits) (.code code)

inductive Parts : Bytes → List Glyph → Prop
  | nil : Parts [] []
  | cons {part rest : Bytes} {glyph : Glyph} {glyphs : List Glyph} :
      Part part glyph → Parts rest glyphs → Parts (part ++ rest) (glyph :: glyphs)

/-- The bytes of a first half of a surrogate pair and the code right behind it. -/
def pairBytes (high low : Nat) : Bytes :=
  if isLowSurrogate low then encodeCode (pairCode high low)
  else encodeCode high ++ encodeCode low

/-- The bytes that parts stand for.  The first half of a surrogate pair is taken together with the
code right behind it, whether or not that is the other half. -/
def bytesOf : List Glyph → Bytes
  | [] => []
  | .byte b :: glyphs => b :: bytesOf glyphs
  | .code high :: .code low :: glyphs =>
      if isHighSurrogate high then pairBytes high low ++ bytesOf glyphs
      else encodeCode high ++ bytesOf (.code low :: glyphs)
  | .code code :: glyphs => encodeCode code ++ bytesOf glyphs

inductive Text : Bytes → Bytes → Prop
  | quoted {inner : Bytes} {glyphs : List Glyph} :
      Parts inner glyphs → Text (Ascii.quote :: (inner ++ [Ascii.quote])) (bytesOf glyphs)

/-! ## Arrays and objects -/

section

variable (V : Bytes → Json → Prop)

/-- The items of an array, at least one, with commas between them. -/
inductive Items : Bytes → List Json → Prop
  | one {gap text gap' : Bytes} {value : Json} :
      Gap gap → V text value → Gap gap' → Items (gap ++ (text ++ gap')) [value]
  | more {gap text gap' rest : Bytes} {value : Json} {values : List Json} :
      Gap gap → V text value → Gap gap' → Items rest values →
      Items (gap ++ (text ++ (gap' ++ Ascii.comma :: rest))) (value :: values)

/-- A key, a colon and a value. -/
inductive Entry : Bytes → Bytes × Json → Prop
  | pair {gap key gap₁ gap₂ text : Bytes} {name : Bytes} {value : Json} :
      Gap gap → Text key name → Gap gap₁ → Gap gap₂ → V text value →
      Entry (gap ++ (key ++ (gap₁ ++ Ascii.colon :: (gap₂ ++ text)))) (name, value)

/-- The entries of an object, at least one, with commas between them. -/
inductive Entries : Bytes → List (Bytes × Json) → Prop
  | one {text gap : Bytes} {entry : Bytes × Json} :
      Entry V text entry → Gap gap → Entries (text ++ gap) [entry]
  | more {text gap rest : Bytes} {entry : Bytes × Json} {entries : List (Bytes × Json)} :
      Entry V text entry → Gap gap → Entries rest entries →
      Entries (text ++ (gap ++ Ascii.comma :: rest)) (entry :: entries)

/-- The members that entries make up: each key is there once, in the order in which the keys are
first met, and has the last of its values. -/
structure Gathers (entries : List (Bytes × Json)) (members : Members) : Prop where
  keys : members.keys = (entries.map Prod.fst).eraseDups
  last : ∀ key, members.get? key =
    (entries.reverse.find? fun entry => entry.1 == key).map Prod.snd

/-- A value, given the values that it may have within. -/
inductive ValueOf : Bytes → Json → Prop
  | null : ValueOf (utf8 "null") .null
  | true : ValueOf (utf8 "true") (.bool true)
  | false : ValueOf (utf8 "false") (.bool false)
  | number {text : Bytes} {value : Json} : Number text value → ValueOf text value
  | text {text s : Bytes} : Text text s → ValueOf text (.text s)
  | emptyArray {gap : Bytes} :
      Gap gap → ValueOf (Ascii.openBracket :: (gap ++ [Ascii.closeBracket])) (.array [])
  | array {inner : Bytes} {items : List Json} : Items V inner items →
      ValueOf (Ascii.openBracket :: (inner ++ [Ascii.closeBracket])) (.array items)
  | emptyObject {gap : Bytes} :
      Gap gap → ValueOf (Ascii.openBrace :: (gap ++ [Ascii.closeBrace])) (.object [])
  | object {inner : Bytes} {entries : List (Bytes × Json)} {members : Members} :
      Entries V inner entries → Gathers entries members →
      ValueOf (Ascii.openBrace :: (inner ++ [Ascii.closeBrace])) (.object members)

end

/-- A value in which values nest so many deep at most, itself counted. -/
def Value : Nat → Bytes → Json → Prop
  | 0 => fun _ _ => False
  | depth + 1 => ValueOf (Value depth)

/-- A whole text: a value in which values nest 64 deep at most, and white space around it. -/
inductive Document : Bytes → Json → Prop
  | value {gap text gap' : Bytes} {value : Json} :
      Gap gap → Value 64 text value → Gap gap' → Document (gap ++ (text ++ gap')) value

end Grammar

end Json

end BearerAuth
