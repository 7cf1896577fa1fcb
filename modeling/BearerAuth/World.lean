import BearerAuth.Grant.Basic
import BearerAuth.Grant.Pool
import BearerAuth.Journal
import BearerAuth.Verdict

/-!
# The shared world and resumable work

Everything that callers share is one value, the `World`: the clock, the
exchanges made so far, the journal, the grants and the pool.  Work that has
to wait is a `Progress`: it is done, or it pauses in a phase from which it can
be resumed.  A piece of work runs undisturbed from one pause to the next, so
a change of the world between two pauses is a plain function.
-/

namespace BearerAuth

/-- What callers share. -/
structure World where
  now : Instant := 0
  /-- All exchanges, in the order in which they were sent. -/
  sent : List Transport.Exchange := []
  journal : List Journal.Entry := []
  grants : List Grant := []
  pool : Pool := []
  /-- The keys of the pool, in the order in which they were filed. -/
  filed : List Bytes := []
  /-- Callers whose wait for a token is over, in the order of their release. -/
  released : List Ticket := []
  /-- The cancellations still to come of callers that share the clock.  One
  whose instant has come takes effect when it leaves this list. -/
  agenda : List Cancellation := []
  /-- The handlers that chains have called. -/
  called : List Handler := []

namespace World

/-- The caller has been canceled: the instant has come, and the cancellation
is not one still to come. -/
def canceled (world : World) (caller : Caller) : Bool :=
  caller.canceled world.now &&
    !world.agenda.any fun cancellation => cancellation.ticket == caller.ticket

def note (world : World) (level : Journal.Level) (message : Bytes) : World :=
  { world with journal := world.journal ++ [⟨level, message⟩] }

/-- The grant at a place; a place where none was opened has one without
credentials. -/
def grant (world : World) (place : Nat) : Grant :=
  world.grants[place]?.getD { credentials := { tokenUrl := {} } }

def setGrant (world : World) (place : Nat) (grant : Grant) : World :=
  { world with grants := world.grants.set place grant }

def openGrant (world : World) (credentials : Credentials) : Nat × World :=
  (world.grants.length, { world with grants := world.grants ++ [{ credentials }] })

end World

/-! ## Progress -/

/-- Work that is done with a result, or pauses in a phase. -/
inductive Progress (φ ρ : Type) where
  | done (result : ρ)
  | paused (phase : φ) (wait : Transport.Wait)

/-- A stretch of work, from one pause to the next. -/
abbrev Stretch (φ ρ : Type) := Progress φ ρ × World

/-- Lets others come in between: a pause whose timer has gone off already. -/
def Stretch.yield {φ ρ : Type} (phase : φ) (world : World) : Stretch φ ρ :=
  (.paused phase { timer := some world.now, brief := true }, world)

/-- Continues work with what follows its result; a pause stays a pause, in a
phase of the larger work. -/
def Stretch.andThen {φ ψ ρ τ : Type} (stretch : Stretch φ ρ) (within : φ → ψ)
    (next : ρ → World → Stretch ψ τ) : Stretch ψ τ :=
  match stretch with
  | (.done result, world) => next result world
  | (.paused phase wait, world) => (.paused (within phase) wait, world)

/-! ## Transports -/

/-- A way to make exchanges: how one starts, and how it goes on after a
pause. -/
structure Transport where
  Phase : Type
  start : Caller → Url → Request → World → Stretch Phase Transport.Reply
  resume : Caller → Phase → World → Stretch Phase Transport.Reply

end BearerAuth
