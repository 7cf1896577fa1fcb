import BearerAuth.Authenticator
import BearerAuth.Introspection.Answer
import BearerAuth.Transport.Authorized
import BearerAuth.Transport.Retry

/-!
# The introspection authenticator

It takes the bearer token of a request, asks an endpoint about it and holds
the answer against the policy that settings and rule make up together.  The
session changes only when every check has passed.
-/

namespace BearerAuth

namespace Introspection

def identifier : Bytes := utf8 "oauth2_introspection"

/-- What holds for all rules: how many seconds before its end an own token is
given up, and how many grants the pool remembers. -/
structure Options where
  refreshSkew : UInt32 := 10
  capacity : Nat := 64
  deriving DecidableEq, Repr

/-! ## The policy of a rule -/

/-- The failure for settings that cannot be used. -/
def misconfigured (message : Bytes) : Rejection :=
  (.misconfigured, utf8 "configuration of " ++ identifier ++ utf8 " is invalid: " ++ message)

/-- The policy under a rule's text, with its retry schedule. -/
def policyFor (settings : Settings.Store) (config : Bytes) :
    Except Rejection (Settings.Policy × Settings.Schedule) :=
  match settings.effective identifier config with
  | .error fault => .error (misconfigured fault.message)
  | .ok value => match Settings.Policy.ofJson value with
    | .error fault => .error (misconfigured fault.message)
    | .ok policy => match policy.schedule with
      | .error fault => .error (misconfigured fault.message)
      | .ok schedule => .ok (policy, schedule)

/-! ## The request -/

/-- The form that asks about a token.  Scopes go along when the policy does
not match them itself. -/
def form (policy : Settings.Policy) (token : Bytes) : Form.Fields :=
  (utf8 "token", token) ::
  (match policy.scopeStrategy.matcher? with
    | none => [(utf8 "scope", Bytes.join Ascii.space policy.requiredScopes)]
    | some _ => [])

/-- The request that asks about a token, with the headers that the policy
names. -/
def inquiryRequest (policy : Settings.Policy) (token : Bytes) : Request :=
  let configured : Headers :=
    policy.headers.foldl (fun headers header => headers.set header.1 header.2) []
  { method := utf8 "POST"
    target := policy.endpoint.target
    headers := configured.set (utf8 "Content-Type") formMediaType
    body := Form.encodeFields (form policy token) }

/-! ## The route -/

/-- How the endpoint is reached: directly, or with a token of the client's
own. -/
inductive Route where
  | direct
  | preAuthorized (line : Line)
  deriving DecidableEq, Repr

/-- The transport of a route, over a base transport. -/
def Route.transport (base : Transport) : Route → Transport
  | .direct => Transport.retried Settings.Schedule.brisk base
  | .preAuthorized line =>
      Transport.retried line.schedule (Transport.authorized base line.grant)

/-- The credentials of a pre-authorization. -/
def credentials (options : Options) (pre : Settings.PreAuthorization) (endpoint : Url) :
    Credentials :=
  { tokenUrl := endpoint
    clientId := pre.clientId
    clientSecret := pre.clientSecret
    scopes := pre.scopes
    refreshSkew := options.refreshSkew.toNat }

/-- A new line in the pool, over a new grant. -/
def addLine (options : Options) (pre : Settings.PreAuthorization) (endpoint : Url)
    (schedule : Settings.Schedule) (world : World) : Line × World :=
  let (place, world) := world.openGrant (credentials options pre endpoint)
  let line : Line := ⟨place, schedule⟩
  let key := Pool.key endpoint pre schedule
  let (filed, pool) := Pool.makeRoom options.capacity world.filed world.pool
  let world := { world with pool := pool.insert key line, filed := filed ++ [key] }
  (line, world.note .debug (identifier ++ utf8 ": new pre-authorized transport for client " ++
    pre.clientId ++ utf8 " at " ++ endpoint.print))

/-- The line for a pre-authorization: the one that the pool has, or a new
one. -/
def lineFor (options : Options) (pre : Settings.PreAuthorization) (endpoint : Url)
    (schedule : Settings.Schedule) (world : World) : Line × World :=
  match world.pool.find? (Pool.key endpoint pre schedule) with
  | some line => (line, world)
  | none => addLine options pre endpoint schedule world

def routeFor (options : Options) (policy : Settings.Policy) (schedule : Settings.Schedule)
    (world : World) : Route × World :=
  match policy.preAuthorization with
  | none => (.direct, world)
  | some pre => match pre.endpoint with
    | none => (.direct, world)
    | some endpoint =>
        let (line, world) := lineFor options pre endpoint schedule world
        (.preAuthorized line, world)

/-! ## The verdict -/

/-- The answer that a reply holds. -/
def readReply : Transport.Reply → Except Rejection Answer
  | .ok response => readResponse response
  | .error failure =>
      let ending := if failure.reason = .canceled then utf8 "canceled: " else utf8 "failed: "
      .error (.transport, utf8 "introspection request " ++ ending ++ failure.message)

/-- The answer that a reply holds, when it passes all checks of a policy. -/
def judge (policy : Settings.Policy) (reply : Transport.Reply) : Except Rejection Answer := do
  let answer ← readReply reply
  check policy answer
  .ok answer

/-- Notes a rejection. -/
def noteRejection (rejection : Rejection) (world : World) : World :=
  world.note .debug (identifier ++ utf8 ": " ++ rejection.1.name ++ utf8 " (" ++
    rejection.2 ++ utf8 ")")

/-- A rejection as a judgement, the session unchanged. -/
def reject (rejection : Rejection) (session : Session) (world : World) :
    Judgement × World :=
  ((.ok (.failure rejection.1 rejection.2), session), noteRejection rejection world)

/-- The judgement on a reply. -/
def conclude (policy : Settings.Policy) (ruleId : Bytes) (session : Session)
    (reply : Transport.Reply) (world : World) : Judgement × World :=
  match judge policy reply with
  | .error rejection => reject rejection session world
  | .ok answer =>
      ((.ok .success, answer.session),
       world.note .debug (identifier ++ utf8 ": rule " ++ ruleId ++
         utf8 " authenticated subject " ++ answer.subject))

/-! ## The authenticator -/

/-- A judgement that waits for a reply. -/
structure Pending (base : Transport) where
  policy : Settings.Policy
  ruleId : Bytes
  session : Session
  route : Route
  phase : (route.transport base).Phase

/-- What follows a reply, as work that is done. -/
def finish {base : Transport} (policy : Settings.Policy) (ruleId : Bytes) (session : Session)
    (reply : Transport.Reply) (world : World) : Stretch (Pending base) Judgement :=
  let (judgement, world) := conclude policy ruleId session reply world
  (.done judgement, world)

/-- Asks the endpoint about a token. -/
def ask (base : Transport) (options : Options) (policy : Settings.Policy)
    (schedule : Settings.Schedule) (token : Bytes) (inquiry : Inquiry) (session : Session)
    (world : World) : Stretch (Pending base) Judgement :=
  let (route, world) := routeFor options policy schedule world
  ((route.transport base).start inquiry.caller policy.endpoint
      (inquiryRequest policy token) world).andThen
    (fun phase => { policy, ruleId := inquiry.ruleId, session, route, phase })
    (finish policy inquiry.ruleId session)

def start (base : Transport) (options : Options) (settings : Settings.Store)
    (inquiry : Inquiry) (session : Session) (world : World) :
    Stretch (Pending base) Judgement :=
  match policyFor settings inquiry.config with
  | .error rejection =>
      let (judgement, world) := reject rejection session world
      (.done judgement, world)
  | .ok (policy, schedule) =>
      let token := Credential.extract inquiry.request policy.tokenFrom
      if token.isEmpty then (.done (.ok .notResponsible, session), world)
      else ask base options policy schedule token inquiry session world

def resume (base : Transport) (caller : Caller) (pending : Pending base) (world : World) :
    Stretch (Pending base) Judgement :=
  ((pending.route.transport base).resume caller pending.phase world).andThen
    (fun phase => { pending with phase })
    (finish pending.policy pending.ruleId pending.session)

/-- The policy of a rule's text, or the verdict that there is none. -/
def configure (settings : Settings.Store) (config : Bytes) (world : World) :
    Except Verdict (Settings.Policy × Settings.Schedule) × World :=
  match policyFor settings config with
  | .ok found => (.ok found, world)
  | .error rejection =>
      (.error (.failure rejection.1 rejection.2), noteRejection rejection world)

/-- Whether the authenticator is enabled and a rule's text makes a policy. -/
def validate (settings : Settings.Store) (config : Bytes) (world : World) : Verdict × World :=
  if !settings.isEnabled identifier then
    (.failure .notEnabled (utf8 "authenticator " ++ identifier ++ utf8 " is disabled"), world)
  else match configure settings config world with
    | (.ok _, world) => (.success, world)
    | (.error verdict, world) => (verdict, world)

def authenticator (base : Transport) (options : Options) : Authenticator (Pending base) where
  validate := validate
  start := start base options
  resume := resume base

end Introspection

end BearerAuth
