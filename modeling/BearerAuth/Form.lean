import BearerAuth.Bytes

/-!
# Form fields

The encoding of form bodies and query strings: fields separated by `&`, the
name of each before its first `=`, a space as `+`, and every other byte that
is not a letter, a digit or one of `-_.~` as a percent sign with two
hexadecimal digits.
-/

namespace BearerAuth

namespace Form

abbrev Fields := List (Bytes × Bytes)

/-! ## Encoding -/

/-- A byte that stands for itself. -/
def isPlain (b : UInt8) : Bool :=
  (65 ≤ b && b ≤ 90) || (97 ≤ b && b ≤ 122) || Bytes.isDigit b ||
    b == Ascii.minus || b == '_'.toUInt8 || b == Ascii.point || b == Ascii.tilde

/-- A hexadecimal digit in upper case. -/
def hexDigit (n : Nat) : UInt8 := if n < 10 then (48 + n).toUInt8 else (55 + n).toUInt8

/-- One byte, encoded. -/
def encodeByte (b : UInt8) : Bytes :=
  if isPlain b then [b]
  else if b = Ascii.space then [Ascii.plus]
  else [Ascii.percent, hexDigit (b.toNat / 16), hexDigit (b.toNat % 16)]

def encode (s : Bytes) : Bytes := s.flatMap encodeByte

def encodeField (field : Bytes × Bytes) : Bytes :=
  encode field.1 ++ Ascii.equals :: encode field.2

def encodeFields (fields : Fields) : Bytes :=
  Bytes.join Ascii.ampersand (fields.map encodeField)

/-! ## Decoding -/

/-- A name or a value, decoded.  A percent sign without two hexadecimal
digits behind it stands for itself. -/
def decode : Bytes → Bytes
  | [] => []
  | [b] => [if b = Ascii.plus then Ascii.space else b]
  | [b, d] => (if b = Ascii.plus then Ascii.space else b) :: decode [d]
  | b :: d :: e :: rest =>
      if b = Ascii.percent then match Bytes.hexDigit? d, Bytes.hexDigit? e with
        | some high, some low => (16 * high + low).toUInt8 :: decode rest
        | _, _ => b :: decode (d :: e :: rest)
      else (if b = Ascii.plus then Ascii.space else b) :: decode (d :: e :: rest)

/-- One field, decoded: without an equals sign the value is empty. -/
def decodeField (field : Bytes) : Bytes × Bytes :=
  match Bytes.cut Ascii.equals field with
  | none => (decode field, [])
  | some (name, value) => (decode name, decode value)

/-- A list of fields, decoded.  Nothing between two separators is no
field. -/
def decodeFields (text : Bytes) : Fields :=
  ((Bytes.split Ascii.ampersand text).filter fun field => !field.isEmpty).map decodeField

/-- The first value of a name in an encoded list of fields. -/
def lookup (text name : Bytes) : Option Bytes :=
  ((decodeFields text).find? fun field => field.1 == name).map Prod.snd

end Form

end BearerAuth
