import BearerAuth.Binary64

/-!
# JSON values

Integers that fit a 64-bit register are kept apart from all other numbers.
An object is a list of members with distinct keys; `put` keeps them distinct.
-/

namespace BearerAuth

inductive Json where
  | null
  | bool (value : Bool)
  | int (value : Int)
  | double (value : Binary64)
  | text (value : Bytes)
  | array (items : List Json)
  | object (members : List (Bytes × Json))
  deriving Inhabited

namespace Json

abbrev Members := List (Bytes × Json)

/-- The name of the value's type, as errors spell it. -/
def typeName : Json → Bytes
  | .null => utf8 "null"
  | .bool _ => utf8 "boolean"
  | .int _ => utf8 "integer"
  | .double _ => utf8 "number"
  | .text _ => utf8 "string"
  | .array _ => utf8 "array"
  | .object _ => utf8 "object"

def isObject : Json → Bool
  | .object _ => true
  | _ => false

namespace Members

def get? (members : Members) (key : Bytes) : Option Json :=
  match members with
  | [] => none
  | (k, v) :: rest => if k = key then some v else get? rest key

/-- Gives a key a value: in the key's place when it has one already, behind
all others when it is new. -/
def put (members : Members) (key : Bytes) (value : Json) : Members :=
  match members with
  | [] => [(key, value)]
  | (k, v) :: rest => if k = key then (k, value) :: rest else (k, v) :: put rest key value

/-- The value of a key, where `null` counts as no value. -/
def present? (members : Members) (key : Bytes) : Option Json :=
  match get? members key with
  | some .null => none
  | found => found

def keys (members : Members) : List Bytes := members.map Prod.fst

end Members

end Json

end BearerAuth
