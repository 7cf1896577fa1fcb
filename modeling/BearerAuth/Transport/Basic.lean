import BearerAuth.Clock
import BearerAuth.Message
import BearerAuth.Url

/-!
# Exchanges

An exchange sends one request to a URL and gives a response or a failure.
A `Peer` is everything at the other end of the connections.  What it does
with a request depends on the exchanges made before, and not on the caller:
that a caller is canceled or runs out of time is not known at the other end.
-/

namespace BearerAuth

namespace Transport

/-! ## Replies -/

/-- Why an exchange gave no response. -/
inductive Reason where
  /-- The connection could not be made or broke. -/
  | connection
  /-- Time ran out. -/
  | timeout
  /-- The caller was canceled. -/
  | canceled
  /-- The request or the URL cannot be used. -/
  | protocol
  /-- The client could not obtain its own credentials. -/
  | credentials
  deriving DecidableEq, Repr

def Reason.name : Reason → Bytes
  | .connection => utf8 "connection"
  | .timeout => utf8 "timeout"
  | .canceled => utf8 "canceled"
  | .protocol => utf8 "protocol"
  | .credentials => utf8 "credentials"

/-- The end of an exchange without a response. -/
structure Failure where
  reason : Reason
  message : Bytes
  deriving DecidableEq, Repr

/-- A later attempt may succeed where this one failed. -/
def Failure.isTransient (failure : Failure) : Bool :=
  failure.reason == .connection || failure.reason == .timeout

/-- The caller itself gave the exchange up: it was canceled or ran out of
time. -/
def Failure.isAbandonment (failure : Failure) : Bool :=
  failure.reason == .canceled || failure.reason == .timeout

/-- The failure with a text for its message, which ends at the first NUL of
the text. -/
def Failure.saying (reason : Reason) (text : Bytes) : Failure :=
  ⟨reason, Bytes.untilNul text⟩

def Failure.requestCanceled : Failure := ⟨.canceled, utf8 "request canceled"⟩

def Failure.deadlineExceeded : Failure := ⟨.timeout, utf8 "request deadline exceeded"⟩

/-- How an exchange ends. -/
abbrev Reply := Except Failure Response

/-! ## Waiting -/

/-- What ends a pause: an instant, the cancellation of the caller, or neither
of them.  A brief pause waits for nothing; it lets others come in between. -/
structure Wait where
  timer : Option Instant := none
  cancel : Option Instant := none
  brief : Bool := false
  deriving DecidableEq, Repr

/-- The earliest instant that ends a pause by itself. -/
def Wait.ends (wait : Wait) : Option Instant :=
  match wait.timer, wait.cancel with
  | some timer, some cancel => some (min timer cancel)
  | some timer, none => some timer
  | none, some cancel => some cancel
  | none, none => none

/-! ## Peers -/

/-- A request on its way: when and where it was sent. -/
structure Exchange where
  instant : Instant
  url : Url
  request : Request
  deriving DecidableEq, Repr

/-- A reply, and the delay before it comes. -/
structure Delivery where
  delay : Span := 0
  reply : Reply

/-- What answers exchanges: from those made before and the exchange itself
comes a delivery, or the failure of a peer that has none. -/
abbrev Peer := List Exchange → Exchange → Except Failure Delivery

end Transport

end BearerAuth
