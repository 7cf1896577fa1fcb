import BearerAuth.Json.Basic
import BearerAuth.Binary64.Text

/-!
# Writing JSON

Values are written without spaces, the members of an object in the order they
are held.  The canonical text has them sorted by the bytes of their keys at
every level, so it does not depend on that order.
-/

namespace BearerAuth

namespace Json

/-! ## Strings -/

/-- A hexadecimal digit in lower case. -/
def hexDigit (n : Nat) : UInt8 := if n < 10 then (48 + n).toUInt8 else (87 + n).toUInt8

/-- One byte inside a string: quotes, backslashes and control characters are
escaped, all other bytes stand for themselves. -/
def escape (b : UInt8) : Bytes :=
  if b = Ascii.quote then utf8 "\\\""
  else if b = Ascii.backslash then utf8 "\\\\"
  else if b = 8 then utf8 "\\b"
  else if b = 12 then utf8 "\\f"
  else if b = Ascii.lineFeed then utf8 "\\n"
  else if b = Ascii.carriageReturn then utf8 "\\r"
  else if b = Ascii.tab then utf8 "\\t"
  else if b < 32 then utf8 "\\u00" ++ [hexDigit (b.toNat / 16), hexDigit (b.toNat % 16)]
  else [b]

def quoted (s : Bytes) : Bytes := Ascii.quote :: (s.flatMap escape ++ [Ascii.quote])

/-! ## Values -/

mutual

def write : Json → Bytes
  | .null => utf8 "null"
  | .bool b => if b then utf8 "true" else utf8 "false"
  | .int n => Bytes.ofInt n
  | .double x => x.write
  | .text s => quoted s
  | .array items => Ascii.openBracket :: (writeItems items ++ [Ascii.closeBracket])
  | .object members => Ascii.openBrace :: (writeMembers members ++ [Ascii.closeBrace])

def writeItems : List Json → Bytes
  | [] => []
  | [item] => write item
  | item :: next :: rest => write item ++ Ascii.comma :: writeItems (next :: rest)

def writeMembers : List (Bytes × Json) → Bytes
  | [] => []
  | [(key, value)] => quoted key ++ Ascii.colon :: write value
  | (key, value) :: next :: rest =>
      quoted key ++ Ascii.colon :: (write value ++ Ascii.comma :: writeMembers (next :: rest))

end

/-! ## Canonical order -/

def Members.sort (members : Members) : Members := Bytes.sortOn Prod.fst members

mutual

/-- The value with the members of every object in it sorted. -/
def sorted : Json → Json
  | .array items => .array (sortedItems items)
  | .object members => .object (Members.sort (sortedMembers members))
  | other => other

def sortedItems : List Json → List Json
  | [] => []
  | item :: rest => sorted item :: sortedItems rest

def sortedMembers : List (Bytes × Json) → Members
  | [] => []
  | (key, value) :: rest => (key, sorted value) :: sortedMembers rest

end

def canonical (value : Json) : Bytes := value.sorted.write

mutual

/-- No object in the value has more than one member, so the value has only
one text. -/
def singular : Json → Bool
  | .array items => singularItems items
  | .object members => members.length ≤ 1 && singularMembers members
  | _ => true

def singularItems : List Json → Bool
  | [] => true
  | item :: rest => singular item && singularItems rest

def singularMembers : List (Bytes × Json) → Bool
  | [] => true
  | (_, value) :: rest => singular value && singularMembers rest

end

end Json

end BearerAuth
