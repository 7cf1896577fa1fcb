import BearerAuth.Grant.Request

/-!
# Grants

A grant keeps the access token that a client obtained with its credentials.
At most one caller at a time fetches a new token; the others queue up behind
it, and are released when the outcome of the fetch is published, be it a token
or a failure.
-/

namespace BearerAuth

/-- A caller in the queue, and how many publications it had seen when it found a
fetch under way. -/
structure Queued where
  ticket : Ticket
  seen : Nat
  deriving DecidableEq, Repr

/-- The state of a grant.  The token is empty as long as none has been
obtained. -/
structure Grant where
  credentials : Credentials
  token : Bytes := []
  expiry : Instant := 0
  /-- A caller is fetching. -/
  busy : Bool := false
  /-- How many fetches have been begun.  A counter of 64 bits would come round
  again after 2^64 of them; here there is no bound. -/
  begun : Nat := 0
  /-- How many outcomes have been published; without a bound as well, so no
  count is ever seen twice. -/
  published : Nat := 0
  /-- The failure last published, when no token was published after it. -/
  failure : Option Transport.Failure := none
  /-- The last publication was a failure of the fetching caller's own: it was
  canceled or ran out of time, which says nothing about the endpoint. -/
  givenUp : Bool := false
  /-- The callers that wait for the next publication, in the order in which
  they joined. -/
  queue : List Queued := []
  deriving DecidableEq, Repr

namespace Grant

/-- There is a token, and it will still be valid when the skew has passed. -/
def isFresh (grant : Grant) (now : Instant) : Bool :=
  !grant.token.isEmpty &&
    Clock.after now (Clock.seconds grant.credentials.refreshSkew) < grant.expiry

def beginFetch (grant : Grant) : Grant :=
  { grant with busy := true, begun := grant.begun + 1 }

def join (grant : Grant) (ticket : Ticket) (seen : Nat) : Grant :=
  { grant with queue := grant.queue ++ [⟨ticket, seen⟩] }

def leave (grant : Grant) (ticket : Ticket) : Grant :=
  { grant with queue := grant.queue.filter fun queued => queued.ticket != ticket }

/-- The end of a fetch: one more publication, and nobody in the queue. -/
def endFetch (grant : Grant) : Grant :=
  { grant with busy := false, published := grant.published + 1, queue := [] }

/-- The grant after a fetch that gave a token. -/
def keepToken (grant : Grant) (now : Instant) (issued : IssuedToken) : Grant :=
  { grant.endFetch with
    token := issued.token
    expiry := Clock.after now (Clock.seconds issued.lifetime)
    failure := none
    givenUp := false }

/-- The grant after a fetch that failed: the token it had stays. -/
def keepFailure (grant : Grant) (failure : Transport.Failure) : Grant :=
  { grant.endFetch with failure := some failure, givenUp := failure.isAbandonment }

/-- The grant after a fetch. -/
def publish (grant : Grant) (now : Instant) :
    Except Transport.Failure IssuedToken → Grant
  | .ok issued => grant.keepToken now issued
  | .error failure => grant.keepFailure failure

/-- The callers that a publication releases, in the order they joined. -/
def released (grant : Grant) : List Ticket := grant.queue.map Queued.ticket

/-- The headers that authorize a request: none without a token. -/
def headers (grant : Grant) : Headers :=
  if grant.token.isEmpty then []
  else [(utf8 "Authorization", utf8 "Bearer " ++ grant.token)]

end Grant

end BearerAuth
