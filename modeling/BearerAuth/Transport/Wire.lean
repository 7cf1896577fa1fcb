import BearerAuth.World

/-!
# Exchanges on the wire

A request is recorded when it is sent, whatever becomes of it.  A caller that
is canceled or out of time then gets no further; otherwise the reply comes
after its delay, which the caller's deadline cuts short, and so does its
cancellation up to the very end.
-/

namespace BearerAuth

namespace Transport

namespace Wire

/-- When a caller has a reply that is due at an instant, and which: its
deadline is the end when it comes first. -/
def ending (caller : Caller) (due : Instant) (reply : Reply) : Instant × Reply :=
  match caller.deadline with
  | none => (due, reply)
  | some deadline =>
      if deadline < due then (deadline, .error .deadlineExceeded) else (due, reply)

/-- What becomes of a delivery.  A pause remembers the reply at its end. -/
def deliver (caller : Caller) (delivery : Delivery) (world : World) : Stretch Reply Reply :=
  if world.canceled caller then (.done (.error .requestCanceled), world)
  else if caller.expired world.now then (.done (.error .deadlineExceeded), world)
  else if delivery.delay ≤ 0 then (.done delivery.reply, world)
  else
    let (instant, reply) := ending caller (Clock.after world.now delivery.delay) delivery.reply
    (.paused reply { timer := some instant, cancel := caller.cancelAt }, world)

/-- The end of a pause: nothing comes to a caller canceled by then. -/
def arrive (caller : Caller) (reply : Reply) (world : World) : Stretch Reply Reply :=
  (.done (if world.canceled caller then .error .requestCanceled else reply), world)

end Wire

/-- Exchanges with a peer, one request each. -/
def wire (peer : Peer) : Transport where
  Phase := Reply
  start caller url request world :=
    let exchange : Exchange := { instant := world.now, url, request }
    let answer := peer world.sent exchange
    let world := { world with sent := world.sent ++ [exchange] }
    match answer with
    | .error failure => (.done (.error failure), world)
    | .ok delivery => Wire.deliver caller delivery world
  resume caller reply world := Wire.arrive caller reply world

end Transport

end BearerAuth
