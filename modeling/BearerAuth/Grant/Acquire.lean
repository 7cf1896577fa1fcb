import BearerAuth.World

/-!
# Acquiring a token

A caller that needs a token takes the cached one while it is fresh.  Without
a fresh one the first caller fetches, and all that come while it does wait
for what it publishes.  A waiting caller whose wait ends by a publication
shares it, unless the fetch was given up by the caller that made it: then it
starts over, on its own time.  One whose own time ends first leaves the
queue.

A grant is looked at for one turn at a time.  A caller that finds a fetch under
way looks again before it joins the queue, as the outcome may be there by then;
one whose wait is over looks how it ended, and goes on with that later.  In
between others have their turns.
-/

namespace BearerAuth

namespace Acquire

/-- How a wait for another's fetch ended. -/
inductive Ending where
  | refreshed
  | failed (failure : Transport.Failure)
  /-- The caller that fetched gave up. -/
  | abandoned
  | canceled
  | timedOut
  deriving DecidableEq, Repr

/-- Where a caller stands: its own fetch is under way; or it has found another's
under way, having seen a number of publications, and comes to the queue, or
waits, or has stopped waiting. -/
inductive Phase (φ : Type) where
  | fetching (phase : φ)
  | joining (seen : Nat)
  | awaiting (seen : Nat)
  | returning (ending : Ending)

/-- Whether the caller may go on. -/
abbrev Result := Except Transport.Failure Unit

def canceledWhileWaiting : Transport.Failure :=
  ⟨.canceled, utf8 "request canceled while waiting for access token"⟩

def deadlineWhileWaiting : Transport.Failure :=
  ⟨.timeout, utf8 "request deadline reached while waiting for access token"⟩

/-- What the journal says about a fetch. -/
def describe (credentials : Credentials) :
    Except Transport.Failure IssuedToken → Journal.Level × Bytes
  | .error failure =>
      (.error, utf8 "OAuth2: token request to " ++ credentials.tokenUrl.print ++
        utf8 " failed: " ++ failure.message)
  | .ok issued =>
      (.info, utf8 "OAuth2: obtained access token for client " ++ credentials.clientId ++
        utf8 " from " ++ credentials.tokenUrl.print ++ utf8 " (expires in " ++
        Bytes.ofInt issued.lifetime ++ utf8 "s)")

/-- The world after the reply to a token request: the outcome is noted and
published, and all who waited for it are released. -/
def publish (place : Nat) (outcome : Except Transport.Failure IssuedToken) (world : World) :
    World :=
  let grant := world.grant place
  let (level, message) := describe grant.credentials outcome
  let world := (world.note level message).setGrant place (grant.publish world.now outcome)
  { world with released := world.released ++ grant.released }

def finish {φ : Type} (place : Nat) (reply : Transport.Reply) (world : World) :
    Stretch (Phase φ) Result :=
  let outcome := IssuedToken.ofReply reply
  (.done (outcome.map fun _ => ()), publish place outcome world)

def fetch (base : Transport) (place : Nat) (caller : Caller) (world : World) :
    Stretch (Phase base.Phase) Result :=
  let grant := world.grant place
  let world := world.setGrant place grant.beginFetch
  (base.start caller grant.credentials.tokenUrl grant.credentials.request world).andThen
    .fetching (finish place)

def start (base : Transport) (place : Nat) (caller : Caller) (world : World) :
    Stretch (Phase base.Phase) Result :=
  let grant := world.grant place
  if grant.isFresh world.now then (.done (.ok ()), world)
  else if grant.busy then .yield (.joining grant.published) world
  else fetch base place caller world

/-- A caller that has seen `seen` publications joins the queue, unless there has
been another one since. -/
def await {φ : Type} (place : Nat) (caller : Caller) (seen : Nat) (world : World) :
    Stretch (Phase φ) Result :=
  let grant := world.grant place
  if grant.published = seen then
    (.paused (.awaiting seen) { timer := caller.deadline, cancel := caller.cancelAt },
     world.setGrant place (grant.join caller.ticket seen))
  else .yield (.awaiting seen) world

/-- How the last publication ends the waits for it. -/
def Ending.ofGrant (grant : Grant) : Ending :=
  if grant.givenUp then .abandoned
  else match grant.failure with
    | some failure => .failed failure
    | none => .refreshed

/-- A caller that has seen `seen` publications stops waiting: for another one, or
because it is canceled or out of time; then it leaves the queue. -/
def conclude (place : Nat) (caller : Caller) (seen : Nat) (world : World) : Ending × World :=
  let grant := world.grant place
  if grant.published ≠ seen then (.ofGrant grant, world)
  else
    let world := world.setGrant place (grant.leave caller.ticket)
    (if world.canceled caller then .canceled else .timedOut, world)

/-- What follows a wait. -/
def goOn (base : Transport) (place : Nat) (caller : Caller) (ending : Ending) (world : World) :
    Stretch (Phase base.Phase) Result :=
  match ending with
  | .refreshed => (.done (.ok ()), world)
  | .failed failure => (.done (.error failure), world)
  | .abandoned => start base place caller world
  | .canceled => (.done (.error canceledWhileWaiting), world)
  | .timedOut => (.done (.error deadlineWhileWaiting), world)

def resume (base : Transport) (place : Nat) (caller : Caller) :
    Phase base.Phase → World → Stretch (Phase base.Phase) Result
  | .fetching phase, world => (base.resume caller phase world).andThen .fetching (finish place)
  | .joining seen, world => await place caller seen world
  | .awaiting seen, world =>
      let (ending, world) := conclude place caller seen world
      .yield (.returning ending) world
  | .returning ending, world => goOn base place caller ending world

end Acquire

end BearerAuth
