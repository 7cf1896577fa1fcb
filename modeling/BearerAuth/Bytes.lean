/-!
# Byte strings

Everything that crosses a connection or a configuration file is a list of
bytes, valid UTF-8 or not.  This module holds the operations the rest of the
library shares: ASCII case, cutting and splitting, trimming, decimal text and
the lexicographic order.

All character classes here are ASCII classes: a byte of 0x80 or above is in
none of them and has no other case.
-/

namespace BearerAuth

/-! ## Strings of bytes -/

abbrev Bytes := List UInt8

def utf8 (text : String) : Bytes := text.toByteArray.data.toList

/-! ## Named bytes -/

namespace Ascii

@[match_pattern] abbrev tab : UInt8 := 9
@[match_pattern] abbrev lineFeed : UInt8 := 10
@[match_pattern] abbrev carriageReturn : UInt8 := 13
@[match_pattern] abbrev space : UInt8 := 32
@[match_pattern] abbrev quote : UInt8 := 34
@[match_pattern] abbrev hash : UInt8 := 35
@[match_pattern] abbrev percent : UInt8 := 37
@[match_pattern] abbrev ampersand : UInt8 := 38
@[match_pattern] abbrev plus : UInt8 := 43
@[match_pattern] abbrev comma : UInt8 := 44
@[match_pattern] abbrev minus : UInt8 := 45
@[match_pattern] abbrev point : UInt8 := 46
@[match_pattern] abbrev slash : UInt8 := 47
@[match_pattern] abbrev zero : UInt8 := 48
@[match_pattern] abbrev colon : UInt8 := 58
@[match_pattern] abbrev semicolon : UInt8 := 59
@[match_pattern] abbrev equals : UInt8 := 61
@[match_pattern] abbrev question : UInt8 := 63
@[match_pattern] abbrev atSign : UInt8 := 64
@[match_pattern] abbrev openBracket : UInt8 := 91
@[match_pattern] abbrev backslash : UInt8 := 92
@[match_pattern] abbrev closeBracket : UInt8 := 93
@[match_pattern] abbrev openBrace : UInt8 := 123
@[match_pattern] abbrev closeBrace : UInt8 := 125
@[match_pattern] abbrev tilde : UInt8 := 126

end Ascii

namespace Bytes

/-! ## Classes of bytes -/

def isDigit (b : UInt8) : Bool := 48 ≤ b && b ≤ 57

/-- A space or a tab: what may stand around a header value or a cookie. -/
def isBlank (b : UInt8) : Bool := b == Ascii.space || b == Ascii.tab

/-- Any of space, tab, line feed, vertical tab, form feed, carriage return. -/
def isSpace (b : UInt8) : Bool := b == Ascii.space || (9 ≤ b && b ≤ 13)

/-- The lower-case letter of an upper-case one; every other byte is kept. -/
def lower (b : UInt8) : UInt8 := if 65 ≤ b && b ≤ 90 then b + 32 else b

/-- The value of a hexadecimal digit, in either case. -/
def hexDigit? (b : UInt8) : Option Nat :=
  if 48 ≤ b && b ≤ 57 then some (b.toNat - 48)
  else if 97 ≤ b && b ≤ 102 then some (b.toNat - 87)
  else if 65 ≤ b && b ≤ 70 then some (b.toNat - 55)
  else none

/-! ## Case -/

def toLower (s : Bytes) : Bytes := s.map lower

/-- Equal up to the case of ASCII letters. -/
def sameLetters (s t : Bytes) : Bool := toLower s == toLower t

/-! ## Cutting -/

/-- What stands before and after the first `sep`, when there is one. -/
def cut (sep : UInt8) : Bytes → Option (Bytes × Bytes)
  | [] => none
  | b :: rest =>
      if b = sep then some ([], rest)
      else (cut sep rest).map fun parts => (b :: parts.1, parts.2)

/-- What stands before and after the last `sep`, when there is one. -/
def cutLast (sep : UInt8) (s : Bytes) : Option (Bytes × Bytes) :=
  (cut sep s.reverse).map fun parts => (parts.2.reverse, parts.1.reverse)

/-- What stands before the first NUL, or all. -/
def untilNul (s : Bytes) : Bytes := s.takeWhile (· != 0)

/-- The pieces between the occurrences of `sep`, empty ones included: there
is always one piece more than there are separators. -/
def split (sep : UInt8) : Bytes → List Bytes
  | [] => [[]]
  | b :: rest =>
      if b = sep then [] :: split sep rest
      else match split sep rest with
        | [] => [[b]]
        | piece :: pieces => (b :: piece) :: pieces

/-- The pieces with one `sep` between each and the next. -/
def join (sep : UInt8) : List Bytes → Bytes
  | [] => []
  | [piece] => piece
  | piece :: next :: pieces => piece ++ sep :: join sep (next :: pieces)

/-- Without the blanks at either end. -/
def trim (s : Bytes) : Bytes :=
  ((s.dropWhile isBlank).reverse.dropWhile isBlank).reverse

/-- Only white space, or nothing at all. -/
def isBlankText (s : Bytes) : Bool := s.all isSpace

/-! ## Decimal text -/

/-- A number in decimal, without leading zeros. -/
def ofNat (n : Nat) : Bytes := (Nat.toDigits 10 n).map fun c => c.toNat.toUInt8

/-- A number in decimal, with a minus sign when it is negative. -/
def ofInt : Int → Bytes
  | .ofNat n => ofNat n
  | .negSucc n => Ascii.minus :: ofNat (n + 1)

/-- The number that a run of decimal digits stands for. -/
def digitsValue (digits : Bytes) : Nat :=
  digits.foldl (fun n b => 10 * n + (b.toNat - 48)) 0

/-! ## Order -/

/-- The lexicographic order of byte strings. -/
def le : Bytes → Bytes → Bool
  | [], _ => true
  | _ :: _, [] => false
  | a :: s, b :: t => a < b || (a == b && le s t)

/-- Puts an element before the first one whose key is not below its own. -/
def insertOn {α : Type} (key : α → Bytes) (x : α) : List α → List α
  | [] => [x]
  | y :: rest => if le (key x) (key y) then x :: y :: rest else y :: insertOn key x rest

/-- Sorted by key; elements of equal keys keep their order. -/
def sortOn {α : Type} (key : α → Bytes) (xs : List α) : List α :=
  xs.foldr (insertOn key) []

end Bytes

end BearerAuth
