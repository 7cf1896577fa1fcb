import BearerAuth.Json.Basic

/-!
# Reading JSON

The reader walks the text with a cursor that knows its offset, so that every
fault names the place where it was found.  It is more lenient than the
standard in one point, leading zeros, and stricter in two: values nest at
most 64 deep, counting scalars, and a number must have a value in the range
of the number formats.

A `\u` escape that stands for one half of a surrogate pair without the other
is kept as the three bytes of its own code.
-/

namespace BearerAuth

namespace Json

/-! ## Faults -/

/-- What is wrong with a text. -/
inductive Complaint where
  | unexpectedEnd
  | nestingTooDeep
  | invalidValue
  | invalidNumber
  | numberOutOfRange
  | stringExpected
  | unterminatedString
  | controlCharacter
  | invalidEscape
  | unknownEscape
  | invalidUnicodeEscape
  | invalidHexDigit
  | arrayCommaExpected
  | objectCommaExpected
  | colonExpected
  | trailingContent
  deriving DecidableEq, Repr

def Complaint.message : Complaint → Bytes
  | .unexpectedEnd => utf8 "Unexpected end of JSON"
  | .nestingTooDeep => utf8 "Nesting too deep"
  | .invalidValue => utf8 "Invalid value"
  | .invalidNumber => utf8 "Invalid number"
  | .numberOutOfRange => utf8 "Number out of range"
  | .stringExpected => utf8 "Expected '\"' at string start"
  | .unterminatedString => utf8 "Unterminated string"
  | .controlCharacter => utf8 "Control character in string"
  | .invalidEscape => utf8 "Invalid escape"
  | .unknownEscape => utf8 "Unknown escape"
  | .invalidUnicodeEscape => utf8 "Invalid unicode escape"
  | .invalidHexDigit => utf8 "Invalid hex in unicode escape"
  | .arrayCommaExpected => utf8 "Expected ',' in array"
  | .objectCommaExpected => utf8 "Expected ',' in object"
  | .colonExpected => utf8 "Expected ':' after key"
  | .trailingContent => utf8 "Unexpected trailing content"

/-- A complaint and the offset at which the reader stood. -/
structure Fault where
  complaint : Complaint
  offset : Nat
  deriving DecidableEq, Repr

def Fault.message (fault : Fault) : Bytes :=
  fault.complaint.message ++ utf8 " at offset " ++ Bytes.ofNat fault.offset

/-! ## The cursor -/

/-- The number of bytes read and the bytes still to come. -/
structure Cursor where
  offset : Nat
  rest : Bytes
  deriving DecidableEq, Repr

/-- What a reader has read, with the cursor behind it. -/
abbrev Read (α : Type) := α × Cursor

/-- Reads an `α` from a cursor on. -/
abbrev Reader (α : Type) := Cursor → Except Fault (Read α)

/-- White space between tokens: space, tab, carriage return, line feed. -/
def isGap (b : UInt8) : Bool :=
  b == Ascii.space || b == Ascii.tab || b == Ascii.carriageReturn || b == Ascii.lineFeed

namespace Cursor

def fault {α : Type} (c : Cursor) (complaint : Complaint) : Except Fault α :=
  .error ⟨complaint, c.offset⟩

def skip (c : Cursor) (n : Nat) : Cursor := ⟨c.offset + n, c.rest.drop n⟩

def skipWhile (c : Cursor) (among : UInt8 → Bool) : Cursor :=
  ⟨c.offset + (c.rest.takeWhile among).length, c.rest.dropWhile among⟩

def skipGap (c : Cursor) : Cursor := c.skipWhile isGap

/-- Past the byte `b`, when that is the next one. -/
def accept (c : Cursor) (b : UInt8) : Option Cursor :=
  match c.rest with
  | [] => none
  | next :: rest => if next = b then some ⟨c.offset + 1, rest⟩ else none

end Cursor

/-! ## Strings -/

/-- The UTF-8 form of a code below 2^21, halves of surrogate pairs
included. -/
def encodeCode (code : Nat) : Bytes :=
  if code < 0x80 then [code.toUInt8]
  else if code < 0x800 then [(0xC0 + code / 64).toUInt8, (0x80 + code % 64).toUInt8]
  else if code < 0x10000 then
    [(0xE0 + code / 4096).toUInt8, (0x80 + code / 64 % 64).toUInt8, (0x80 + code % 64).toUInt8]
  else
    [(0xF0 + code / 262144).toUInt8, (0x80 + code / 4096 % 64).toUInt8,
     (0x80 + code / 64 % 64).toUInt8, (0x80 + code % 64).toUInt8]

def isHighSurrogate (code : Nat) : Bool := 0xD800 ≤ code && code ≤ 0xDBFF

def isLowSurrogate (code : Nat) : Bool := 0xDC00 ≤ code && code ≤ 0xDFFF

/-- The code that a surrogate pair stands for. -/
def pairCode (high low : Nat) : Nat := 0x10000 + (high - 0xD800) * 1024 + (low - 0xDC00)

/-- `n` hexadecimal digits, after digits of value `code`. -/
def readHex : Nat → Nat → Reader Nat
  | 0, code, c => .ok (code, c)
  | n + 1, code, c => match c.rest with
    | [] => c.fault .invalidUnicodeEscape
    | b :: _ => match Bytes.hexDigit? b with
      | some digit => readHex n (16 * code + digit) (c.skip 1)
      | none => (c.skip 1).fault .invalidHexDigit

def readCode (c : Cursor) : Except Fault (Read Nat) :=
  if c.rest.length < 4 then c.fault .invalidUnicodeEscape else readHex 4 0 c

/-- The bytes that a `\u` escape stands for, from behind the `u`.  The first
half of a surrogate pair takes a `\u` escape that follows it along: both
together are one code when that is the second half, and two codes
otherwise. -/
def readUnicode (c : Cursor) : Except Fault (Read Bytes) := do
  let (code, c) ← readCode c
  if isHighSurrogate code && 6 ≤ c.rest.length && (utf8 "\\u").isPrefixOf c.rest then
    let (low, c) ← readCode (c.skip 2)
    if isLowSurrogate low then .ok (encodeCode (pairCode code low), c)
    else .ok (encodeCode code ++ encodeCode low, c)
  else .ok (encodeCode code, c)

/-- The byte that a one-letter escape stands for. -/
def shortEscape? (b : UInt8) : Option UInt8 :=
  if b = Ascii.quote then some Ascii.quote
  else if b = Ascii.backslash then some Ascii.backslash
  else if b = Ascii.slash then some Ascii.slash
  else if b = 'b'.toUInt8 then some 8
  else if b = 'f'.toUInt8 then some 12
  else if b = 'n'.toUInt8 then some Ascii.lineFeed
  else if b = 'r'.toUInt8 then some Ascii.carriageReturn
  else if b = 't'.toUInt8 then some Ascii.tab
  else none

/-- The next piece of a string: the bytes that one character or escape stands
for, or nothing at the closing quote. -/
def readPiece (c : Cursor) : Except Fault (Read (Option Bytes)) :=
  match c.rest with
  | [] => c.fault .unterminatedString
  | b :: rest =>
      let c := c.skip 1
      if b = Ascii.quote then .ok (none, c)
      else if b < 32 then c.fault .controlCharacter
      else if b = Ascii.backslash then match rest with
        | [] => c.fault .invalidEscape
        | e :: _ =>
            let c := c.skip 1
            if e = 'u'.toUInt8 then do
              let (piece, c) ← readUnicode c
              .ok (some piece, c)
            else match shortEscape? e with
              | some byte => .ok (some [byte], c)
              | none => c.fault .unknownEscape
      else .ok (some [b], c)

/-- A string from behind its opening quote.  Each piece takes a byte of the
text at least, so the length of the text bounds their number. -/
def readPieces : Nat → Reader Bytes
  | 0, c => c.fault .unterminatedString
  | n + 1, c => do
    let (piece, c) ← readPiece c
    match piece with
    | none => .ok ([], c)
    | some bytes => do
      let (more, c) ← readPieces n c
      .ok (bytes ++ more, c)

/-- A string with its quotes, after white space. -/
def readText (c : Cursor) : Except Fault (Read Bytes) :=
  let c := c.skipGap
  match c.accept Ascii.quote with
  | none => c.fault .stringExpected
  | some c => readPieces (c.rest.length + 1) c

/-! ## Numbers -/

/-- A numeral: a sign, digits, and where present the digits after the point
and the exponent. -/
structure Numeral where
  negative : Bool
  whole : Bytes
  fraction : Option Bytes
  exponent : Option Int
  deriving DecidableEq, Repr

def readDigits (c : Cursor) : Bytes × Cursor :=
  (c.rest.takeWhile Bytes.isDigit, c.skipWhile Bytes.isDigit)

/-- The digits after the point, when a point follows. -/
def readFraction (c : Cursor) : Except Fault (Read (Option Bytes)) :=
  match c.accept Ascii.point with
  | none => .ok (none, c)
  | some c =>
      let (digits, behind) := readDigits c
      if digits.isEmpty then c.fault .invalidNumber else .ok (some digits, behind)

def readSign (c : Cursor) : Bool × Cursor :=
  match c.accept Ascii.minus, c.accept Ascii.plus with
  | some c, _ => (true, c)
  | none, some c => (false, c)
  | none, none => (false, c)

/-- The exponent, when one follows. -/
def readExponent (c : Cursor) : Except Fault (Read (Option Int)) :=
  match (c.accept 'e'.toUInt8).or (c.accept 'E'.toUInt8) with
  | none => .ok (none, c)
  | some c =>
      let (negative, c) := readSign c
      let (digits, behind) := readDigits c
      let value : Int := Bytes.digitsValue digits
      if digits.isEmpty then c.fault .invalidNumber
      else .ok (some (if negative then -value else value), behind)

def readNumeral (c : Cursor) : Except Fault (Read Numeral) := do
  let (negative, c) := match c.accept Ascii.minus with
    | some c => (true, c)
    | none => (false, c)
  let (whole, behind) := readDigits c
  if whole.isEmpty then c.fault .invalidValue
  else do
    let (fraction, c) ← readFraction behind
    let (exponent, c) ← readExponent c
    .ok (⟨negative, whole, fraction, exponent⟩, c)

/-- The integer that a numeral without fraction and exponent stands for. -/
def Numeral.integer (numeral : Numeral) : Int :=
  let value : Int := Bytes.digitsValue numeral.whole
  if numeral.negative then -value else value

/-- The floating-point number nearest to a numeral. -/
def Numeral.double? (numeral : Numeral) : Option Binary64 :=
  let fraction := numeral.fraction.getD []
  Binary64.ofDecimal numeral.negative (Bytes.digitsValue (numeral.whole ++ fraction))
    (numeral.exponent.getD 0 - fraction.length)

/-- The value of a numeral: an integer when it is written as one and fits a
register, otherwise a floating-point number in range. -/
def Numeral.value? (numeral : Numeral) : Option Json :=
  if numeral.fraction.isNone && numeral.exponent.isNone && Clock.fits numeral.integer then
    some (.int numeral.integer)
  else numeral.double?.map .double

def readNumber (c : Cursor) : Except Fault (Read Json) := do
  let (numeral, c) ← readNumeral c
  match numeral.value? with
  | some value => .ok (value, c)
  | none => c.fault .numberOutOfRange

/-! ## Arrays and objects -/

/-- The items of an array up to its closing bracket, at least one, read with
`read`.  Each takes a byte at least, so the length of the text bounds their
number. -/
def readItems (read : Reader Json) : Nat → Reader (List Json)
  | 0, c => c.fault .unexpectedEnd
  | n + 1, c => do
    let (item, c) ← read c
    let c := c.skipGap
    match c.accept Ascii.closeBracket with
    | some c => .ok ([item], c)
    | none => match c.accept Ascii.comma with
      | none => c.fault .arrayCommaExpected
      | some c => do
        let (items, c) ← readItems read n c
        .ok (item :: items, c)

/-- One member of an object: a key, a colon, a value. -/
def readMember (read : Reader Json) (c : Cursor) : Except Fault (Read (Bytes × Json)) := do
  let (key, c) ← readText c
  let c := c.skipGap
  match c.accept Ascii.colon with
  | none => c.fault .colonExpected
  | some c => do
    let (value, c) ← read c
    .ok ((key, value), c)

/-- The members of an object up to its closing brace, at least one, added to
those read before.  The last value of a key is the one that counts. -/
def readMembers (read : Reader Json) : Nat → Members → Reader Members
  | 0, _, c => c.fault .unexpectedEnd
  | n + 1, before, c => do
    let (member, c) ← readMember read c
    let members := before.put member.1 member.2
    let c := c.skipGap
    match c.accept Ascii.closeBrace with
    | some c => .ok (members, c)
    | none => match c.accept Ascii.comma with
      | none => c.fault .objectCommaExpected
      | some c => readMembers read n members c

def readArray (read : Reader Json) (c : Cursor) : Except Fault (Read Json) :=
  match c.skipGap.accept Ascii.closeBracket with
  | some c => .ok (.array [], c)
  | none => do
    let (items, c) ← readItems read (c.rest.length + 1) c
    .ok (.array items, c)

def readObject (read : Reader Json) (c : Cursor) : Except Fault (Read Json) :=
  match c.skipGap.accept Ascii.closeBrace with
  | some c => .ok (.object [], c)
  | none => do
    let (members, c) ← readMembers read (c.rest.length + 1) [] c
    .ok (.object members, c)

/-! ## Values -/

/-- The number of values that may be nested in one another. -/
def maxDepth : Nat := 64

/-- The literal name that a text starts with. -/
def literal? (s : Bytes) : Option (Json × Nat) :=
  if (utf8 "true").isPrefixOf s then some (.bool true, 4)
  else if (utf8 "false").isPrefixOf s then some (.bool false, 5)
  else if (utf8 "null").isPrefixOf s then some (.null, 4)
  else none

/-- A value, after white space, where `depth` values may still be nested. -/
def readValue : Nat → Reader Json
  | 0, c =>
      let c := c.skipGap
      match c.rest with
      | [] => c.fault .unexpectedEnd
      | _ :: _ => c.fault .nestingTooDeep
  | depth + 1, c =>
      let c := c.skipGap
      match c.rest with
      | [] => c.fault .unexpectedEnd
      | b :: _ =>
          if b = Ascii.quote then do
            let (s, c) ← readText c
            .ok (.text s, c)
          else if b = Ascii.openBrace then readObject (readValue depth) (c.skip 1)
          else if b = Ascii.openBracket then readArray (readValue depth) (c.skip 1)
          else match literal? c.rest with
            | some (value, length) => .ok (value, c.skip length)
            | none => readNumber c

def parse (text : Bytes) : Except Fault Json := do
  let (value, c) ← readValue maxDepth ⟨0, text⟩
  let c := c.skipGap
  match c.rest with
  | [] => .ok value
  | _ :: _ => c.fault .trailingContent

end Json

end BearerAuth
