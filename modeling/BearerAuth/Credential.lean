import BearerAuth.Form
import BearerAuth.Message

/-!
# Where a request carries its bearer token

By default a token is the rest of an `Authorization` header whose scheme is
`Bearer`.  A location names another place: a header, a parameter of the form
body or the query, or a cookie.  A missing token and an empty one are the
same thing, an empty byte string.
-/

namespace BearerAuth

namespace Credential

/-- Where to look for a token.  The first member that is set decides; with
none set the default place is searched. -/
structure Location where
  header : Option Bytes := none
  queryParameter : Option Bytes := none
  cookie : Option Bytes := none
  deriving DecidableEq, Repr

/-! ## Headers -/

/-- The token of the `Authorization` header: what follows its first space,
when the scheme before that is `Bearer` in any case. -/
def fromAuthorization (request : Request) : Bytes :=
  match Bytes.cut Ascii.space (request.headers.first (utf8 "Authorization")) with
  | none => []
  | some (scheme, token) => if Bytes.sameLetters scheme (utf8 "bearer") then token else []

/-- The token of a named header: the whole of its first value. -/
def fromHeader (request : Request) (name : Bytes) : Bytes :=
  if Bytes.sameLetters name (utf8 "Authorization") then fromAuthorization request
  else request.headers.first name

/-! ## Parameters -/

def hasForm (request : Request) : Bool :=
  (request.method == utf8 "POST" || request.method == utf8 "PUT" ||
    request.method == utf8 "PATCH") &&
  formMediaType.isPrefixOf (request.headers.first (utf8 "Content-Type"))

/-- The query of a target: between the first question mark and the number
sign after it, when there is one. -/
def query? (target : Bytes) : Option Bytes :=
  (Bytes.cut Ascii.question target).map fun parts => parts.2.takeWhile (· != Ascii.hash)

def fromQuery (request : Request) (name : Bytes) : Bytes :=
  match query? request.target with
  | none => []
  | some query => (Form.lookup query name).getD []

/-- The token of a parameter; one in a form body comes before one in the
query. -/
def fromParameter (request : Request) (name : Bytes) : Bytes :=
  if hasForm request then match Form.lookup request.body name with
    | some value => value
    | none => fromQuery request name
  else fromQuery request name

/-! ## Cookies -/

/-- Without one pair of double quotes around it. -/
def unquote (value : Bytes) : Bytes :=
  match value with
  | Ascii.quote :: rest =>
      if rest.getLast? = some Ascii.quote then rest.dropLast else value
  | _ => value

/-- The name and the value of one piece of a cookie header, blanks around the
piece dropped. -/
def cookiePair? (piece : Bytes) : Option (Bytes × Bytes) :=
  Bytes.cut Ascii.equals (Bytes.trim piece)

/-- All cookies of a request, in order. -/
def cookies (request : Request) : List (Bytes × Bytes) :=
  (request.headers.values (utf8 "Cookie")).flatMap fun value =>
    (Bytes.split Ascii.semicolon value).filterMap cookiePair?

def fromCookie (request : Request) (name : Bytes) : Bytes :=
  match (cookies request).find? fun cookie => cookie.1 == name with
  | none => []
  | some cookie => unquote cookie.2

/-! ## All places -/

/-- The token of a request, at a location. -/
def extract (request : Request) (location : Option Location) : Bytes :=
  match location with
  | none => fromAuthorization request
  | some location => match location.header, location.queryParameter, location.cookie with
    | some name, _, _ => fromHeader request name
    | none, some name, _ => fromParameter request name
    | none, none, some name => fromCookie request name
    | none, none, none => fromAuthorization request

end Credential

end BearerAuth
