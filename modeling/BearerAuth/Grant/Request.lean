import BearerAuth.Form
import BearerAuth.Json.Reader
import BearerAuth.Transport.Basic

/-!
# Token requests and their answers

A client obtains an access token by posting its credentials to a token
endpoint.  The answer is a JSON object with the token and, optionally, the
number of seconds for which it may be used.
-/

namespace BearerAuth

/-- The credentials of a client, where it presents them, the scopes it asks
for, and how many seconds before its end a token is given up. -/
structure Credentials where
  tokenUrl : Url
  clientId : Bytes := []
  clientSecret : Bytes := []
  scopes : List Bytes := []
  refreshSkew : Int := 10
  deriving DecidableEq, Repr

namespace Credentials

/-- The scopes one after the other.  A space goes before a scope only when
there is text before it, so empty scopes in front leave no trace. -/
def scopeText (scopes : List Bytes) : Bytes :=
  scopes.foldl (fun text scope =>
    if text.isEmpty then scope else text ++ Ascii.space :: scope) []

/-- The fields of the token request; members that are empty are left out. -/
def fields (credentials : Credentials) : Form.Fields :=
  [(utf8 "grant_type", utf8 "client_credentials")] ++
  (if credentials.clientId.isEmpty then []
   else [(utf8 "client_id", credentials.clientId)]) ++
  (if credentials.clientSecret.isEmpty then []
   else [(utf8 "client_secret", credentials.clientSecret)]) ++
  (if credentials.scopes.isEmpty then []
   else [(utf8 "scope", scopeText credentials.scopes)])

def request (credentials : Credentials) : Request :=
  { method := utf8 "POST"
    target := credentials.tokenUrl.target
    headers := (Headers.set [] (utf8 "Content-Type") formMediaType).set
      (utf8 "Accept") (utf8 "application/json")
    body := Form.encodeFields credentials.fields }

end Credentials

/-- A token and the number of seconds for which it may be used. -/
structure IssuedToken where
  token : Bytes
  lifetime : Int
  deriving DecidableEq, Repr

namespace IssuedToken

/-- Why an answer holds no token. -/
inductive Fault where
  | status (code : Int)
  | malformed (fault : Json.Fault)
  | noObject
  | noToken
  deriving DecidableEq, Repr

def Fault.message : Fault → Bytes
  | .status code => utf8 "token endpoint returned status " ++ Bytes.ofInt code
  | .malformed fault => utf8 "token endpoint returned malformed JSON: " ++ fault.message
  | .noObject => utf8 "token endpoint response is not a JSON object"
  | .noToken => utf8 "token endpoint response has no access_token"

/-- The lifetime of a token whose answer names none that can be used. -/
def defaultLifetime : Int := 3600

/-- A floating-point number of seconds as a register receives it: its whole
part, or the least value of the register when that does not fit. -/
def wholeSeconds (x : Binary64) : Int :=
  if Clock.fits x.floor then x.floor else Clock.bottom

/-- The lifetime that a member stands for: a number of at least one second,
its fraction dropped. -/
def lifetimeOf : Option Json → Int
  | some (.int n) => if 0 < n then n else defaultLifetime
  | some (.double x) => if x.atLeastOne then wholeSeconds x else defaultLifetime
  | _ => defaultLifetime

def ofMembers (members : Json.Members) : Except Fault IssuedToken :=
  match members.get? (utf8 "access_token") with
  | some (.text token) =>
      if token.isEmpty then .error .noToken
      else .ok { token, lifetime := lifetimeOf (members.get? (utf8 "expires_in")) }
  | _ => .error .noToken

def ofResponse (response : Response) : Except Fault IssuedToken :=
  if response.status ≠ 200 then .error (.status response.status)
  else match Json.parse response.body with
    | .error fault => .error (.malformed fault)
    | .ok (.object members) => ofMembers members
    | .ok _ => .error .noObject

/-- The token of a reply; an answer without one is a failure to obtain
credentials. -/
def ofReply (reply : Transport.Reply) : Except Transport.Failure IssuedToken :=
  match reply with
  | .error failure => .error failure
  | .ok response => match ofResponse response with
    | .ok issued => .ok issued
    | .error fault => .error ⟨.credentials, utf8 "OAuth2: " ++ fault.message⟩

end IssuedToken

end BearerAuth
