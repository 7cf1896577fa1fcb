import BearerAuth.World

/-!
# Running work on the clock

The clock stands still while there is work to do and jumps to the next event
when there is none.  One caller alone is run by `Stretch.finish`.  Several
callers take turns on a `Timeline`.  They stand in line for their first turns,
and whoever is released joins the line at its end.  Whoever pauses only briefly
goes on before anyone in line.  When nobody is in line the earliest event comes,
and only this one: a cancellation before a timer of the same instant, and timers
of one instant in the order of the timer queue (`Ties`).
-/

namespace BearerAuth

/-- The world at a later instant; the clock never goes back. -/
def World.advanceTo (world : World) (instant : Instant) : World :=
  { world with now := max world.now instant }

/-! ## One caller -/

/-- Runs work to its end, each pause lasting until its timer or cancellation.
`fuel` bounds the number of pauses; there is no end for a pause that nothing
ends. -/
def Stretch.finish {φ ρ : Type} (resume : φ → World → Stretch φ ρ) :
    Nat → Stretch φ ρ → Option (ρ × World)
  | _, (.done result, world) => some (result, world)
  | 0, (.paused _ _, _) => none
  | fuel + 1, (.paused phase wait, world) => match wait.ends with
    | none => none
    | some instant => finish resume fuel (resume phase (world.advanceTo instant))

/-- A bound on the pauses of one caller, beyond all that it takes in
practice. -/
def patience : Nat := Nat.pow 2 40

/-- One exchange of one caller, from beginning to end. -/
def Transport.call (transport : Transport) (caller : Caller) (url : Url) (request : Request)
    (world : World) : Option (Transport.Reply × World) :=
  Stretch.finish (transport.resume caller) patience (transport.start caller url request world)

/-! ## Several callers -/

/-- The work of one caller: when it begins, how, and how it goes on after a
pause. -/
structure Job (φ ρ : Type) where
  caller : Caller
  begins : Instant
  start : World → Stretch φ ρ
  resume : φ → World → Stretch φ ρ

inductive Slot (φ ρ : Type) where
  /-- It has not begun.  A job that comes to its first turn early sets a timer
  for its beginning, at the turn `since`. -/
  | idle (since : Option Nat)
  /-- It pauses since the turn `since`. -/
  | waiting (phase : φ) (wait : Transport.Wait) (since : Nat)
  /-- It has ended; the world is that of its end. -/
  | ended (result : ρ) (world : World)

namespace Timeline

/-- The end of a timer: its instant, the turn at which it was set, and whom it
was set for. -/
structure Alarm where
  instant : Instant
  since : Nat
  ticket : Ticket
  deriving DecidableEq, Repr

/-- Which of two timers of one instant goes off first.  The timer queue is not
part of this library, so any order may be put in here. -/
abbrev Ties := Alarm → Alarm → Bool

/-- The timer that was set first goes off first. -/
def Ties.firstSet : Ties := fun a b => a.since < b.since

def Alarm.precedes (ties : Ties) (a b : Alarm) : Bool :=
  a.instant < b.instant || (a.instant == b.instant && ties a b)

end Timeline

/-- Jobs with the same positions as their slots; the position of a job is the
ticket of its caller.  The tickets in `line` have the next turns. -/
structure Timeline (φ ρ : Type) where
  world : World
  jobs : List (Job φ ρ)
  slots : List (Slot φ ρ)
  line : List Ticket
  turn : Nat := 0
  ties : Timeline.Ties := .firstSet

namespace Slot

def hasEnded {φ ρ : Type} : Slot φ ρ → Bool
  | .ended _ _ => true
  | _ => false

def isBrief {φ ρ : Type} : Slot φ ρ → Bool
  | .waiting _ wait _ => wait.brief
  | _ => false

/-- The job pauses, and a cancellation ends the pause. -/
def heedsCancellation {φ ρ : Type} : Slot φ ρ → Bool
  | .waiting _ wait _ => wait.cancel.isSome
  | _ => false

def result? {φ ρ : Type} : Slot φ ρ → Option (ρ × World)
  | .ended result world => some (result, world)
  | _ => none

/-- The slot of a job after a stretch of work at a turn. -/
def after {φ ρ : Type} (turn : Nat) : Stretch φ ρ → Slot φ ρ
  | (.done result, world) => .ended result world
  | (.paused phase wait, _) => .waiting phase wait turn

end Slot

namespace Timeline

/-! ## Events -/

/-- The first of a list in an order; of elements of which none comes before
the other, the leftmost. -/
def first? {α : Type} (precedes : α → α → Bool) : List α → Option α
  | [] => none
  | a :: rest => match first? precedes rest with
    | none => some a
    | some b => if precedes b a then some b else some a

/-- The alarm of a job, when it has set a timer. -/
def alarm? {φ ρ : Type} (ticket : Ticket) (job : Job φ ρ) : Slot φ ρ → Option Alarm
  | .idle since => since.map fun turn => ⟨job.begins, turn, ticket⟩
  | .waiting _ wait since => wait.timer.map fun instant => ⟨instant, since, ticket⟩
  | .ended _ _ => none

/-- The alarms of jobs from the ticket `ticket` on. -/
def alarmsFrom {φ ρ : Type} (ticket : Ticket) :
    List (Job φ ρ) → List (Slot φ ρ) → List Alarm
  | job :: jobs, slot :: slots =>
      (alarm? ticket job slot).toList ++ alarmsFrom (ticket + 1) jobs slots
  | _, _ => []

/-- What happens next when nobody is in line. -/
inductive Event where
  | cancellation (cancellation : Cancellation)
  | alarm (alarm : Alarm)
  deriving DecidableEq, Repr

/-- The earlier of a cancellation and an alarm that may be missing. -/
def earlier? : Option Cancellation → Option Alarm → Option Event
  | none, none => none
  | none, some alarm => some (.alarm alarm)
  | some cancellation, none => some (.cancellation cancellation)
  | some cancellation, some alarm =>
      if alarm.instant < cancellation.instant then some (.alarm alarm)
      else some (.cancellation cancellation)

/-- The next event.  There is none when all jobs have ended. -/
def event? {φ ρ : Type} (timeline : Timeline φ ρ) : Option Event :=
  if timeline.slots.all Slot.hasEnded then none
  else earlier?
    (first? (fun a b => a.instant < b.instant) timeline.world.agenda)
    (first? (Alarm.precedes timeline.ties) (alarmsFrom 0 timeline.jobs timeline.slots))

/-- The alarm of a job whose pause was only brief. -/
def brief? {φ ρ : Type} (timeline : Timeline φ ρ) : Option Alarm :=
  (alarmsFrom 0 timeline.jobs timeline.slots).find? fun alarm =>
    timeline.slots[alarm.ticket]?.any Slot.isBrief && alarm.instant ≤ timeline.world.now

/-! ## Turns -/

/-- Callers join the line at its end, unless they are in it already. -/
def join (line : List Ticket) : List Ticket → List Ticket
  | [] => line
  | ticket :: rest => join (if line.contains ticket then line else line ++ [ticket]) rest

/-- What a job does in a turn: it sets the timer for its beginning, or it
begins, or it goes on. -/
def work {φ ρ : Type} (turn : Nat) (job : Job φ ρ) (world : World) :
    Slot φ ρ → Slot φ ρ × World
  | .idle _ =>
      if world.now < job.begins then (.idle (some turn), world)
      else
        let stretch := job.start world
        (.after turn stretch, stretch.2)
  | .waiting phase _ _ =>
      let stretch := job.resume phase world
      (.after turn stretch, stretch.2)
  | .ended result world' => (.ended result world', world)

/-- Whom a turn brings into line: those it released, and the job itself when
it pauses although its caller is canceled. -/
def summoned {φ ρ : Type} (ticket : Ticket) (job : Job φ ρ) (slot : Slot φ ρ)
    (world : World) : List Ticket :=
  world.released ++
    (if slot.heedsCancellation && world.canceled job.caller then [ticket] else [])

def takeTurn {φ ρ : Type} (timeline : Timeline φ ρ) (ticket : Ticket) : Timeline φ ρ :=
  match timeline.jobs[ticket]?, timeline.slots[ticket]? with
  | some job, some slot =>
      let (slot, world) := work timeline.turn job timeline.world slot
      { timeline with
        world := { world with released := [] }
        slots := timeline.slots.set ticket slot
        line := join timeline.line (summoned ticket job slot world)
        turn := timeline.turn + 1 }
  | _, _ => timeline

/-- A cancellation takes effect; its caller joins the line when it heeds
it. -/
def cancel {φ ρ : Type} (timeline : Timeline φ ρ) (cancellation : Cancellation) :
    Timeline φ ρ :=
  let world := timeline.world.advanceTo cancellation.instant
  let heeded := timeline.slots[cancellation.ticket]?.any Slot.heedsCancellation
  { timeline with
    world := { world with agenda := world.agenda.erase cancellation }
    line := if heeded then join timeline.line [cancellation.ticket] else timeline.line }

def happen {φ ρ : Type} (timeline : Timeline φ ρ) : Event → Timeline φ ρ
  | .cancellation cancellation => timeline.cancel cancellation
  | .alarm alarm =>
      { timeline with world := timeline.world.advanceTo alarm.instant }.takeTurn alarm.ticket

/-- The turn of whoever paused only briefly; without one the next turn of the
line, or the next event when nobody is in it.  None when there is no event
either. -/
def step? {φ ρ : Type} (timeline : Timeline φ ρ) : Option (Timeline φ ρ) :=
  match timeline.brief? with
  | some alarm =>
      some ({ timeline with line := timeline.line.erase alarm.ticket }.takeTurn alarm.ticket)
  | none => match timeline.line with
    | ticket :: rest => some ({ timeline with line := rest }.takeTurn ticket)
    | [] => timeline.event?.map timeline.happen

/-- Takes steps as long as there are any; `fuel` bounds their number. -/
def run {φ ρ : Type} : Nat → Timeline φ ρ → Timeline φ ρ
  | 0, timeline => timeline
  | fuel + 1, timeline => match timeline.step? with
    | none => timeline
    | some next => run fuel next

/-- A timeline on which no job has begun: all are in line, and their
cancellations are on the agenda. -/
def ofJobs {φ ρ : Type} (world : World) (jobs : List (Job φ ρ)) (ties : Ties := .firstSet) :
    Timeline φ ρ where
  world := { world with agenda := jobs.filterMap fun job => job.caller.cancellation? world.now }
  jobs := jobs
  slots := jobs.map fun _ => .idle none
  line := List.range jobs.length
  ties := ties

/-- The results of all jobs in order, when all have ended. -/
def results? {φ ρ : Type} (timeline : Timeline φ ρ) : Option (List (ρ × World)) :=
  timeline.slots.mapM Slot.result?

/-- The results of jobs that all begin on one timeline, with the worlds of
their ends, and the world after the last of them; cancellations that have not
come by then are dropped.  Every pause of a job may release all others, so
the turns are bounded by the square of their number. -/
def complete {φ ρ : Type} (world : World) (jobs : List (Job φ ρ)) (ties : Ties := .firstSet) :
    Option (List (ρ × World) × World) :=
  let timeline := (ofJobs world jobs ties).run (patience * ((jobs.length + 1) * (jobs.length + 1)))
  timeline.results?.map fun results => (results, { timeline.world with agenda := [] })

end Timeline

end BearerAuth
