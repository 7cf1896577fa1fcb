import BearerAuth.Json.Basic

/-!
# Verdicts and sessions

The verdict of an authenticator on a request: the caller is who the session
now says, the authenticator has nothing to go by, or the request fails for a
reason.  A session is written by the authenticator that succeeds.
-/

namespace BearerAuth

/-- The reasons for which authentication fails. -/
inductive Refusal where
  /-- The authenticator is switched off. -/
  | notEnabled
  /-- Its configuration cannot be used. -/
  | misconfigured
  /-- The token is not active. -/
  | unauthorized
  /-- The token is active and may not be used here. -/
  | forbidden
  /-- The endpoint gave no usable response. -/
  | transport
  /-- The response cannot be understood. -/
  | decode
  deriving DecidableEq, Repr

def Refusal.name : Refusal → Bytes
  | .notEnabled => utf8 "not_enabled"
  | .misconfigured => utf8 "misconfigured"
  | .unauthorized => utf8 "unauthorized"
  | .forbidden => utf8 "forbidden"
  | .transport => utf8 "transport"
  | .decode => utf8 "decode"

/-- The result of authentication. -/
inductive Verdict where
  | success
  | notResponsible
  | failure (refusal : Refusal) (detail : Bytes)
  deriving DecidableEq, Repr

namespace Verdict

def isSuccess : Verdict → Bool
  | .success => true
  | _ => false

/-- The verdict is a failure for the given reason. -/
def is (verdict : Verdict) (refusal : Refusal) : Bool :=
  match verdict with
  | .failure r _ => r == refusal
  | _ => false

/-- The HTTP status that answers a request with this verdict. -/
def httpStatus : Verdict → Nat
  | .success => 200
  | .notResponsible => 401
  | .failure .unauthorized _ => 401
  | .failure .forbidden _ => 403
  | .failure .transport _ => 502
  | .failure .decode _ => 502
  | .failure .notEnabled _ => 500
  | .failure .misconfigured _ => 500

/-- One line that describes the verdict. -/
def describe : Verdict → Bytes
  | .success => utf8 "success"
  | .notResponsible => utf8 "not_responsible"
  | .failure refusal detail =>
      utf8 "failure(" ++ refusal.name ++ utf8 "): " ++ detail

end Verdict

/-- What authentication found out about a caller. -/
structure Session where
  subject : Bytes := []
  extra : Json.Members := []

/-- A handler of a rule: the identifier of an authenticator and the rule's
configuration text for it. -/
structure Handler where
  authenticator : Bytes
  config : Bytes := []
  deriving DecidableEq, Repr

/-- A rule: an identifier and the handlers to try in order. -/
structure Rule where
  id : Bytes
  handlers : List Handler := []
  deriving DecidableEq, Repr

end BearerAuth
