import BearerAuth.Grant.Acquire
import BearerAuth.Timeline

/-!
# Callers of a grant

One caller that acquires a token for itself, and several that do so on one
timeline, each from a start of its own.
-/

namespace BearerAuth

namespace Acquire

/-- One caller acquires a token, with nobody else about. -/
def alone (base : Transport) (place : Nat) (caller : Caller) (world : World) :
    Option (Result × World) :=
  Stretch.finish (resume base place caller) patience (start base place caller world)

/-- The work of a caller that begins at an instant. -/
def job (base : Transport) (place : Nat) (begins : Instant) (caller : Caller) :
    Job (Phase base.Phase) Result :=
  { caller
    begins
    start := start base place caller
    resume := resume base place caller }

/-- Several callers acquire a token; each is given with the instant at which
it begins, and its ticket is its position. -/
def together (base : Transport) (place : Nat) (callers : List (Instant × Caller))
    (world : World) (ties : Timeline.Ties := .firstSet) :
    Option (List (Result × World) × World) :=
  Timeline.complete world (callers.map fun entry => job base place entry.1 entry.2) ties

end Acquire

end BearerAuth
