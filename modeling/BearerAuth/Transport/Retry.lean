import BearerAuth.World

/-!
# Retried exchanges

A transport that tries again after a failure that may pass, waiting longer
each time: the delay doubles.  No retry is made that would begin beyond the
schedule's limit or not before the caller's deadline, and a caller that is
canceled waits no longer.
-/

namespace BearerAuth

namespace Transport

namespace Retry

/-- A call that may take several attempts: what is asked, and when it
began. -/
structure Call where
  url : Url
  request : Request
  began : Instant
  deriving DecidableEq, Repr

/-- Where a call stands: an attempt is under way, or the delay before the
next one.  Attempts are counted from one, and `delay` is the one that follows
the attempt. -/
inductive Phase (φ : Type) where
  | attempting (call : Call) (attempt : Nat) (delay : Span) (phase : φ)
  | resting (call : Call) (attempt : Nat) (delay : Span)

/-! ## Failures -/

/-- The failure of a call whose schedule allows no further attempt. -/
def gaveUp (failure : Failure) (attempt : Nat) : Failure :=
  { failure with
    message := failure.message ++ utf8 " (gave up after " ++ Bytes.ofNat attempt ++
      utf8 " attempts)" }

/-- The failure of a call whose deadline comes before the next attempt. -/
def deadlineReached (failure : Failure) : Failure :=
  ⟨.timeout, failure.message ++ utf8 " (request deadline reached)"⟩

/-! ## The journal -/

/-- Notes that no further attempt is made. -/
def noteGivingUp (call : Call) (attempt : Nat) (failure : Failure) (world : World) : World :=
  world.note .warn (utf8 "HTTP " ++ call.url.print ++ utf8 ": giving up after " ++
    Bytes.ofNat attempt ++ utf8 " attempt(s): " ++ failure.message)

/-- Notes that another attempt will be made. -/
def noteRetry (call : Call) (attempt : Nat) (delay : Span) (failure : Failure) (world : World) :
    World :=
  world.note .warn (utf8 "HTTP " ++ call.url.print ++ utf8 ": attempt " ++
    Bytes.ofNat attempt ++ utf8 " failed (" ++ failure.message ++ utf8 "), retrying in " ++
    Timespan.format delay)

/-! ## Attempts -/

/-- The next attempt would begin beyond the schedule's limit. -/
def exceedsLimit (schedule : Settings.Schedule) (call : Call) (delay : Span) (now : Instant) :
    Bool :=
  schedule.giveUpAfter < Clock.wrap (Clock.wrap (now - call.began) + delay)

/-- The next attempt would not begin before the caller's deadline. -/
def meetsDeadline (caller : Caller) (delay : Span) (now : Instant) : Bool :=
  match caller.deadline with
  | none => false
  | some deadline => deadline ≤ Clock.after now delay

/-- What follows the reply to an attempt: any response ends the call, and so
does a failure that will not pass; after others comes a delay, unless limit,
deadline or cancellation speak against another attempt.  It is assumed that a
timer set for a delay from now goes off at the sum in the register, `Clock.after`:
timers themselves are not part of this library. -/
def settle {φ : Type} (schedule : Settings.Schedule) (caller : Caller) (call : Call)
    (attempt : Nat) (delay : Span) (reply : Reply) (world : World) : Stretch (Phase φ) Reply :=
  match reply with
  | .ok response => (.done (.ok response), world)
  | .error failure =>
      if !failure.isTransient then (.done (.error failure), world)
      else if exceedsLimit schedule call delay world.now then
        (.done (.error (gaveUp failure attempt)), noteGivingUp call attempt failure world)
      else if meetsDeadline caller delay world.now then
        (.done (.error (deadlineReached failure)), world)
      else if world.canceled caller then (.done (.error .requestCanceled), world)
      else
        (.paused (.resting call attempt delay)
           { timer := some (Clock.after world.now delay), cancel := caller.cancelAt },
         noteRetry call attempt delay failure world)

/-- One attempt; every one sends the same request. -/
def attempt (inner : Transport) (schedule : Settings.Schedule) (caller : Caller) (call : Call)
    (count : Nat) (delay : Span) (world : World) : Stretch (Phase inner.Phase) Reply :=
  (inner.start caller call.url call.request world).andThen (.attempting call count delay)
    (settle schedule caller call count delay)

end Retry

/-- Exchanges over `inner`, retried by a schedule. -/
def retried (schedule : Settings.Schedule) (inner : Transport) : Transport where
  Phase := Retry.Phase inner.Phase
  start caller url request world :=
    Retry.attempt inner schedule caller ⟨url, request, world.now⟩ 1 schedule.baseDelay world
  resume caller phase world := match phase with
    | .attempting call count delay phase =>
        (inner.resume caller phase world).andThen (.attempting call count delay)
          (Retry.settle schedule caller call count delay)
    | .resting call count delay =>
        if world.canceled caller then (.done (.error .requestCanceled), world)
        else Retry.attempt inner schedule caller call (count + 1) (Clock.wrap (delay * 2)) world

end Transport

end BearerAuth
