import BearerAuth.Bytes

/-!
# Instants, spans and callers

Time is counted in nanoseconds.  Clock registers are 64 bits wide: a sum that
leaves their range wraps around, and the places where the library adds to a
register say so with `wrap`.

A `Caller` is the party on whose behalf outbound work is done.  When it will
be canceled and when its time runs out are known from the start, so both are
plain data here.  Cancellations of one instant still take effect one after
the other; which of them are still to come is for the world to say.
-/

namespace BearerAuth

/-- A point on the clock, in nanoseconds. -/
abbrev Instant := Int

/-- A length of time, in nanoseconds. -/
abbrev Span := Int

namespace Clock

/-- What a signed 64-bit register holds after receiving `n`. -/
def wrap (n : Int) : Int := Int.bmod n 18446744073709551616

def top : Int := 9223372036854775807

def bottom : Int := -9223372036854775808

/-- Whether a register can hold `n` without wrapping. -/
def fits (n : Int) : Bool := bottom ≤ n && n ≤ top

def seconds (n : Int) : Span := wrap (n * 1000000000)

def milliseconds (n : Int) : Span := wrap (n * 1000000)

/-- The instant a span after another. -/
def after (start : Instant) (span : Span) : Instant := wrap (start + span)

end Clock

/-- Names one of the callers that share a clock. -/
abbrev Ticket := Nat

/-- The party outbound work is done for: an optional instant at which it is
canceled and an optional instant at which its time is up. -/
structure Caller where
  ticket : Ticket := 0
  cancelAt : Option Instant := none
  deadline : Option Instant := none
  deriving DecidableEq, Repr

namespace Caller

/-- The caller that starts at an instant, and is canceled and out of time
after the given spans from then on. -/
def starting (ticket : Ticket) (start : Instant) (cancelAfter deadlineAfter : Option Span) :
    Caller :=
  { ticket
    cancelAt := cancelAfter.map (Clock.after start)
    deadline := deadlineAfter.map (Clock.after start) }

def canceled (caller : Caller) (now : Instant) : Bool :=
  match caller.cancelAt with
  | none => false
  | some instant => instant ≤ now

def expired (caller : Caller) (now : Instant) : Bool :=
  match caller.deadline with
  | none => false
  | some deadline => deadline ≤ now

/-- When an operation started at `now` with its own time limit, in
milliseconds, has to end: at the limit, or at the deadline if that is
earlier. -/
def mustEndBy (caller : Caller) (now : Instant) (timeout : Int) : Instant :=
  let expiry := Clock.after now (Clock.milliseconds timeout)
  match caller.deadline with
  | none => expiry
  | some deadline => if deadline < expiry then deadline else expiry

end Caller

/-- A cancellation that has yet to take effect, of the caller with a
ticket. -/
structure Cancellation where
  instant : Instant
  ticket : Ticket
  deriving DecidableEq, Repr

/-- The cancellation of a caller that is still to come at `now`. -/
def Caller.cancellation? (caller : Caller) (now : Instant) : Option Cancellation :=
  match caller.cancelAt with
  | none => none
  | some instant => if instant ≤ now then none else some ⟨instant, caller.ticket⟩

end BearerAuth
