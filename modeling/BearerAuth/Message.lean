import BearerAuth.Bytes

/-!
# Requests and responses

Headers are an ordered list.  Their names are compared without regard to the
case of ASCII letters, and a value is stored without the blanks around it.
-/

namespace BearerAuth

/-! ## Headers -/

/-- Header names with their values, in order; a name may occur repeatedly. -/
abbrev Headers := List (Bytes × Bytes)

namespace Headers

/-- Bytes that no header name may have besides controls, spaces and bytes
above the tilde. -/
def separators : Bytes := utf8 "()<>@,;:\\\"/[]?=\x7b\x7d \t"

/-- A valid header name: not empty, of visible ASCII bytes that are no
separators. -/
def isName (name : Bytes) : Bool :=
  !name.isEmpty && name.all fun b => 0x20 < b && b < 0x7F && !separators.contains b

/-- A valid header value: without line breaks and without NUL. -/
def isValue (value : Bytes) : Bool :=
  value.all fun b => b != Ascii.carriageReturn && b != Ascii.lineFeed && b != 0

/-- All values of a name, in order. -/
def values (headers : Headers) (name : Bytes) : List Bytes :=
  (headers.filter fun header => Bytes.sameLetters header.1 name).map Prod.snd

/-- The first value of a name, empty when the name does not occur. -/
def first (headers : Headers) (name : Bytes) : Bytes := (values headers name).headD []

/-- Adds a header behind those that are there. -/
def insert (headers : Headers) (name value : Bytes) : Headers :=
  headers ++ [(name, Bytes.trim value)]

/-- Replaces all headers of a name by one. -/
def set (headers : Headers) (name value : Bytes) : Headers :=
  insert (headers.filter fun header => !Bytes.sameLetters header.1 name) name value

/-- Names in lower case with their values, sorted by both. -/
def listing (headers : Headers) : List (Bytes × Bytes) :=
  let lowered := headers.map fun header => (Bytes.toLower header.1, header.2)
  Bytes.sortOn Prod.fst (Bytes.sortOn Prod.snd lowered)

end Headers

/-! ## Messages -/

/-- A request; the method is any text, and compared exactly. -/
structure Request where
  method : Bytes := utf8 "GET"
  target : Bytes := utf8 "/"
  headers : Headers := []
  body : Bytes := []
  deriving DecidableEq, Repr

/-- A response as far as this library reads it. -/
structure Response where
  status : Int := 200
  body : Bytes := []
  deriving DecidableEq, Repr

def formMediaType : Bytes := utf8 "application/x-www-form-urlencoded"

end BearerAuth
