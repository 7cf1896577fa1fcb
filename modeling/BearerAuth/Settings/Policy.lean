import BearerAuth.Credential
import BearerAuth.Json.Basic
import BearerAuth.Scope
import BearerAuth.Timespan
import BearerAuth.Url

/-!
# The introspection policy

The settings under which a token is introspected, decoded from a JSON object.
Decoding is strict: a member that is not known, or not of its type, is a
fault at every level, and `null` counts as no value.
-/

namespace BearerAuth

namespace Settings

/-! ## The policy -/

/-- How the introspection client obtains an access token of its own.  The
endpoint is there exactly when pre-authorization is enabled. -/
structure PreAuthorization where
  clientId : Bytes := []
  clientSecret : Bytes := []
  scopes : List Bytes := []
  tokenUrl : Bytes := []
  endpoint : Option Url := none
  deriving DecidableEq, Repr

/-- The retry schedule as it was written; an empty text stands for the
default. -/
structure RetryTexts where
  maxDelay : Bytes := []
  giveUpAfter : Bytes := []
  deriving DecidableEq, Repr

/-- The settings under which a token is introspected. -/
structure Policy where
  requiredScopes : List Bytes := []
  targetAudiences : List Bytes := []
  trustedIssuers : List Bytes := []
  scopeStrategy : Scope.Strategy := .none
  introspectionUrl : Bytes := []
  endpoint : Url := {}
  tokenFrom : Option Credential.Location := none
  /-- Headers of the introspection request, sorted by name. -/
  headers : Headers := []
  preAuthorization : Option PreAuthorization := none
  retry : Option RetryTexts := none
  deriving DecidableEq, Repr

def PreAuthorization.enabled (pre : PreAuthorization) : Bool := pre.endpoint.isSome

/-- The policy asks for pre-authorization. -/
def Policy.preAuthorized (policy : Policy) : Bool :=
  match policy.preAuthorization with
  | none => false
  | some pre => pre.enabled

/-! ## Faults -/

/-- Why settings are no policy. -/
inductive Fault where
  | wrongType (path : Bytes) (expected : Bytes) (got : Bytes)
  | unknownField (place : Bytes) (key : Bytes)
  | unknownStrategy (name : Bytes)
  | missingUrl
  | badUrl (path : Bytes) (fault : Url.Fault)
  | severalLocations
  | badHeaderName (name : Bytes)
  | badHeaderValue (name : Bytes)
  | missingCredential (path : Bytes)
  | badDuration (path : Bytes) (text : Bytes)
  | durationNotPositive (path : Bytes) (text : Bytes)
  deriving DecidableEq, Repr

def Fault.message : Fault → Bytes
  | .wrongType path expected got =>
      path ++ utf8 ": expected " ++ expected ++ utf8 ", got " ++ got
  | .unknownField place key => place ++ utf8 ": unknown field \"" ++ key ++ utf8 "\""
  | .unknownStrategy name =>
      utf8 "scope_strategy: unknown strategy \"" ++ name ++ utf8 "\""
  | .missingUrl => utf8 "introspection_url is required"
  | .badUrl path fault => path ++ utf8 ": " ++ fault.message
  | .severalLocations =>
      utf8 "token_from: only one of header, query_parameter or cookie may be set"
  | .badHeaderName name =>
      utf8 "introspection_request_headers: \"" ++ name ++ utf8 "\" is not a valid header name"
  | .badHeaderValue name =>
      utf8 "introspection_request_headers." ++ name ++ utf8 ": value contains CR, LF or NUL"
  | .missingCredential path =>
      path ++ utf8 " is required when pre-authorization is enabled"
  | .badDuration path text => path ++ utf8 ": invalid duration \"" ++ text ++ utf8 "\""
  | .durationNotPositive path text =>
      path ++ utf8 ": duration must be positive, got \"" ++ text ++ utf8 "\""

/-! ## Members -/

/-- A value that is not of the type it should have. -/
def wrongType {α : Type} (path : Bytes) (expected : String) (value : Json) : Except Fault α :=
  .error (.wrongType path (utf8 expected) value.typeName)

/-- Refuses the first member that is not among the known ones. -/
def onlyKnown (place : String) (known : List String) (members : Json.Members) :
    Except Fault Unit :=
  match members.find? fun member => !(known.map utf8).contains member.1 with
  | none => .ok ()
  | some member => .error (.unknownField (utf8 place) member.1)

/-- A member that is a string, when it is there. -/
def text? (members : Json.Members) (place key : String) : Except Fault (Option Bytes) :=
  match members.present? (utf8 key) with
  | none => .ok none
  | some (.text s) => .ok (some s)
  | some other => wrongType (utf8 place ++ utf8 key) "string" other

/-- A member that is a string, empty when it is not there. -/
def text (members : Json.Members) (place key : String) : Except Fault Bytes :=
  (text? members place key).map fun found => found.getD []

/-- A member that is a boolean, false when it is not there. -/
def flag (members : Json.Members) (place key : String) : Except Fault Bool :=
  match members.present? (utf8 key) with
  | none => .ok false
  | some (.bool b) => .ok b
  | some other => wrongType (utf8 place ++ utf8 key) "boolean" other

/-- Strings, the first of them at position `index` of the array at `path`. -/
def textItems (path : Bytes) : Nat → List Json → Except Fault (List Bytes)
  | _, [] => .ok []
  | index, .text s :: rest => (textItems path (index + 1) rest).map (s :: ·)
  | index, other :: _ =>
      wrongType (path ++ utf8 "[" ++ Bytes.ofNat index ++ utf8 "]") "string" other

/-- A member that is an array of strings, empty when it is not there. -/
def texts (members : Json.Members) (place key : String) : Except Fault (List Bytes) :=
  match members.present? (utf8 key) with
  | none => .ok []
  | some (.array items) => textItems (utf8 place ++ utf8 key) 0 items
  | some other => wrongType (utf8 place ++ utf8 key) "array of strings" other

/-- A member that is an object, decoded by `decode` when it is there. -/
def section? {α : Type} (members : Json.Members) (key : String)
    (decode : Json.Members → Except Fault α) : Except Fault (Option α) :=
  match members.present? (utf8 key) with
  | none => .ok none
  | some (.object inner) => (decode inner).map some
  | some other => wrongType (utf8 key) "object" other

def url (path : String) (text : Bytes) : Except Fault Url :=
  match Url.parse text with
  | .ok url => .ok url
  | .error fault => .error (.badUrl (utf8 path) fault)

/-! ## Sections -/

/-- Where to look for the token; at most one place may be named. -/
def locationOf (members : Json.Members) : Except Fault Credential.Location := do
  onlyKnown "token_from" ["header", "query_parameter", "cookie"] members
  let header ← text? members "token_from." "header"
  let queryParameter ← text? members "token_from." "query_parameter"
  let cookie ← text? members "token_from." "cookie"
  if 1 < ([header, queryParameter, cookie].filter Option.isSome).length then
    throw .severalLocations
  .ok { header, queryParameter, cookie }

/-- Request headers, in the order of the members. -/
def headersOf : Json.Members → Except Fault Headers
  | [] => .ok []
  | (name, .text value) :: rest =>
      if !Headers.isName name then .error (.badHeaderName name)
      else if !Headers.isValue value then .error (.badHeaderValue name)
      else (headersOf rest).map ((name, value) :: ·)
  | (name, other) :: _ =>
      wrongType (utf8 "introspection_request_headers." ++ name) "string" other

/-- How the client authorizes itself.  Identifier, secret and token endpoint
are required when it does. -/
def PreAuthorization.ofMembers (members : Json.Members) : Except Fault PreAuthorization := do
  let place := "pre_authorization."
  onlyKnown "pre_authorization"
    ["enabled", "client_id", "client_secret", "scope", "token_url"] members
  let enabled ← flag members place "enabled"
  let clientId ← text members place "client_id"
  let clientSecret ← text members place "client_secret"
  let scopes ← texts members place "scope"
  let tokenUrl ← text members place "token_url"
  if !enabled then .ok { clientId, clientSecret, scopes, tokenUrl }
  else
    if clientId.isEmpty then throw (.missingCredential (utf8 "pre_authorization.client_id"))
    if clientSecret.isEmpty then
      throw (.missingCredential (utf8 "pre_authorization.client_secret"))
    if tokenUrl.isEmpty then throw (.missingCredential (utf8 "pre_authorization.token_url"))
    let endpoint ← url "pre_authorization.token_url" tokenUrl
    .ok { clientId, clientSecret, scopes, tokenUrl, endpoint := some endpoint }

def RetryTexts.ofMembers (members : Json.Members) : Except Fault RetryTexts := do
  onlyKnown "retry" ["max_delay", "give_up_after"] members
  let maxDelay ← text members "retry." "max_delay"
  let giveUpAfter ← text members "retry." "give_up_after"
  .ok { maxDelay, giveUpAfter }

/-! ## The whole policy -/

/-- The members that a policy may have. -/
def policyFields : List String :=
  ["required_scope", "target_audience", "trusted_issuers", "pre_authorization",
   "scope_strategy", "introspection_url", "token_from", "introspection_request_headers",
   "retry"]

def Policy.ofMembers (members : Json.Members) : Except Fault Policy := do
  onlyKnown "configuration" policyFields members
  let requiredScopes ← texts members "" "required_scope"
  let targetAudiences ← texts members "" "target_audience"
  let trustedIssuers ← texts members "" "trusted_issuers"
  let strategyName ← text members "" "scope_strategy"
  let scopeStrategy ← match Scope.Strategy.ofName strategyName with
    | some strategy => Except.ok strategy
    | none => .error (.unknownStrategy strategyName)
  let introspectionUrl ← text members "" "introspection_url"
  if introspectionUrl.isEmpty then throw .missingUrl
  let endpoint ← url "introspection_url" introspectionUrl
  let tokenFrom ← section? members "token_from" locationOf
  let headers ← section? members "introspection_request_headers" headersOf
  let preAuthorization ← section? members "pre_authorization" PreAuthorization.ofMembers
  let retry ← section? members "retry" RetryTexts.ofMembers
  .ok { requiredScopes, targetAudiences, trustedIssuers, scopeStrategy, introspectionUrl,
        endpoint, tokenFrom, headers := Bytes.sortOn Prod.fst (headers.getD []),
        preAuthorization, retry }

def Policy.ofJson : Json → Except Fault Policy
  | .object members => Policy.ofMembers members
  | other => wrongType (utf8 "configuration") "object" other

/-! ## The retry schedule -/

/-- Bounds of a retry schedule: the delay before the first retry, doubled
before each further one, and the time beyond which no retry is begun. -/
structure Schedule where
  baseDelay : Span := 100000000
  giveUpAfter : Span := 1000000000
  deriving DecidableEq, Repr

/-- The schedule of endpoints without pre-authorization: 100 milliseconds,
one second. -/
def Schedule.brisk : Schedule := {}

def defaultMaxDelay : Bytes := utf8 "500ms"

def defaultGiveUpAfter : Bytes := utf8 "1s"

/-- A positive span from its text, or from the default when the text is
empty. -/
def resolveSpan (path : String) (text default : Bytes) : Except Fault Span :=
  let text := if text.isEmpty then default else text
  match Timespan.parse text with
  | none => .error (.badDuration (utf8 path) text)
  | some span => if span ≤ 0 then .error (.durationNotPositive (utf8 path) text) else .ok span

/-- The schedule of a policy: what it says when it asks for
pre-authorization, and the brisk one when it does not. -/
def Policy.schedule (policy : Policy) : Except Fault Schedule :=
  if !policy.preAuthorized then .ok Schedule.brisk
  else do
    let texts := policy.retry.getD {}
    let baseDelay ← resolveSpan "retry.max_delay" texts.maxDelay defaultMaxDelay
    let giveUpAfter ← resolveSpan "retry.give_up_after" texts.giveUpAfter defaultGiveUpAfter
    .ok { baseDelay, giveUpAfter }

end Settings

end BearerAuth
