import BearerAuth.Json.Reader
import BearerAuth.Message
import BearerAuth.Settings.Policy
import BearerAuth.Verdict

/-!
# Answers about tokens

An introspection endpoint answers with a JSON object that says whether a
token is active, and whose it is.  `ofBody` reads it, every member being
optional, and `check` holds it against a policy: the first check that fails
decides.
-/

namespace BearerAuth

namespace Introspection

/-! ## Reading -/

/-- What an endpoint says about a token; a text that is absent is empty. -/
structure Answer where
  active : Bool := false
  extra : Json.Members := []
  audience : List Bytes := []
  subject : Bytes := []
  username : Bytes := []
  tokenType : Bytes := []
  issuer : Bytes := []
  clientId : Bytes := []
  scope : Bytes := []

/-- Why a body is no answer. -/
inductive Answer.Fault where
  | malformed (fault : Json.Fault)
  | noObject (got : Bytes)
  | wrongType (field : Bytes) (expected : Bytes) (got : Bytes)
  | audienceNotStrings
  deriving DecidableEq, Repr

def Answer.Fault.message : Answer.Fault → Bytes
  | .malformed fault => fault.message
  | .noObject got => utf8 "expected a JSON object, got " ++ got
  | .wrongType field expected got =>
      utf8 "field \"" ++ field ++ utf8 "\" must be " ++ expected ++ utf8 ", got " ++ got
  | .audienceNotStrings => utf8 "field \"aud\" must contain only strings"

namespace Answer

/-- A member that is not of the type it should have. -/
def wrongType {α : Type} (field expected : String) (value : Json) : Except Fault α :=
  .error (.wrongType (utf8 field) (utf8 expected) value.typeName)

/-- A member that is a string, empty when it is not there. -/
def text (members : Json.Members) (field : String) : Except Fault Bytes :=
  match members.present? (utf8 field) with
  | none => .ok []
  | some (.text s) => .ok s
  | some other => wrongType field "a string" other

/-- Whether the token is active; it is not when nothing is said. -/
def activeOf (members : Json.Members) : Except Fault Bool :=
  match members.present? (utf8 "active") with
  | none => .ok false
  | some (.bool b) => .ok b
  | some other => wrongType "active" "a boolean" other

/-- Further members, to be handed on. -/
def extraOf (members : Json.Members) : Except Fault Json.Members :=
  match members.present? (utf8 "ext") with
  | none => .ok []
  | some (.object extra) => .ok extra
  | some other => wrongType "ext" "an object" other

/-- Items that all have to be strings. -/
def texts : List Json → Except Fault (List Bytes)
  | [] => .ok []
  | .text s :: rest => (texts rest).map (s :: ·)
  | _ :: _ => .error .audienceNotStrings

/-- For whom the token is intended: an array, or a single string. -/
def audienceOf (members : Json.Members) : Except Fault (List Bytes) :=
  match members.present? (utf8 "aud") with
  | none => .ok []
  | some (.text s) => .ok [s]
  | some (.array items) => texts items
  | some other => wrongType "aud" "an array of strings" other

/-- The answer of the members of an object. -/
def ofMembers (members : Json.Members) : Except Fault Answer := do
  let active ← activeOf members
  let extra ← extraOf members
  let audience ← audienceOf members
  let subject ← text members "sub"
  let username ← text members "username"
  let tokenType ← text members "token_type"
  let issuer ← text members "iss"
  let clientId ← text members "client_id"
  let scope ← text members "scope"
  .ok { active, extra, audience, subject, username, tokenType, issuer, clientId, scope }

def ofBody (body : Bytes) : Except Fault Answer :=
  match Json.parse body with
  | .error fault => .error (.malformed fault)
  | .ok (.object members) => ofMembers members
  | .ok other => .error (.noObject other.typeName)

end Answer

/-! ## Checking -/

/-- Why authentication fails: a refusal with its detail. -/
abbrev Rejection := Refusal × Bytes

/-- The type of tokens that may be used. -/
def accessTokenType : Bytes := utf8 "access_token"

/-- The token is an access token, or its type is not given. -/
def checkType (answer : Answer) : Except Rejection Unit :=
  if answer.tokenType.isEmpty || answer.tokenType == accessTokenType then .ok ()
  else .error (.forbidden,
    utf8 "not an access token but \"" ++ answer.tokenType ++ utf8 "\"")

def checkActive (answer : Answer) : Except Rejection Unit :=
  if answer.active then .ok () else .error (.unauthorized, utf8 "token not active")

/-- The token is intended for every audience that the policy names. -/
def checkAudience (policy : Settings.Policy) (answer : Answer) : Except Rejection Unit :=
  match policy.targetAudiences.find? fun audience => !answer.audience.contains audience with
  | none => .ok ()
  | some audience => .error (.forbidden,
      utf8 "audience mismatch: token is not intended for " ++ audience)

/-- The token comes from an issuer that the policy trusts; a policy that
names none trusts all. -/
def checkIssuer (policy : Settings.Policy) (answer : Answer) : Except Rejection Unit :=
  if policy.trustedIssuers.isEmpty || policy.trustedIssuers.contains answer.issuer then .ok ()
  else .error (.forbidden,
    utf8 "issuer mismatch: \"" ++ answer.issuer ++ utf8 "\" is not trusted")

/-- The scopes granted to the token cover all that the policy requires, when
its strategy matches scopes at all. -/
def checkScopes (policy : Settings.Policy) (answer : Answer) : Except Rejection Unit :=
  match policy.scopeStrategy.matcher? with
  | none => .ok ()
  | some covers =>
      let granted := Bytes.split Ascii.space answer.scope
      match policy.requiredScopes.find? fun required => !covers granted required with
      | none => .ok ()
      | some required => .error (.forbidden, utf8 "scope not granted: " ++ required)

def check (policy : Settings.Policy) (answer : Answer) : Except Rejection Unit := do
  checkType answer
  checkActive answer
  checkAudience policy answer
  checkIssuer policy answer
  checkScopes policy answer

/-- The answer of a response, when it has the expected status and can be
read. -/
def readResponse (response : Response) : Except Rejection Answer :=
  if response.status ≠ 200 then
    .error (.transport, utf8 "unexpected status " ++ Bytes.ofInt response.status ++
      utf8 " from introspection endpoint, expected 200")
  else match Answer.ofBody response.body with
    | .ok answer => .ok answer
    | .error fault =>
        .error (.decode, utf8 "malformed introspection response: " ++ fault.message)

/-- The session of a caller about whose token the answer speaks. -/
def Answer.session (answer : Answer) : Session :=
  { subject := answer.subject
    extra := ((answer.extra.put (utf8 "username") (.text answer.username)).put
      (utf8 "client_id") (.text answer.clientId)).put (utf8 "scope") (.text answer.scope) }

end Introspection

end BearerAuth
