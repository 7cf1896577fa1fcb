import BearerAuth.Chain
import BearerAuth.Introspection.Authenticator
import BearerAuth.Timeline

/-!
# The gateway

Settings, registered authenticators and the world they share, in one value.
A matter is put to the introspection authenticator alone or to a rule's
chain; several matters may be judged on one timeline.
-/

namespace BearerAuth

/-- What is put to a gateway. -/
inductive Matter where
  /-- A request, for the introspection authenticator. -/
  | inquiry (inquiry : Inquiry)
  /-- A request under a rule, for the rule's chain. -/
  | petition (petition : Chain.Petition)

/-- A gateway over a base transport. -/
structure Gateway (base : Transport) where
  options : Introspection.Options := {}
  settings : Settings.Store := []
  roster : Roster (Introspection.Pending base) := []
  world : World := {}

namespace Gateway

variable {base : Transport}

/-- Where the judgement of a matter stands. -/
abbrev Phase (base : Transport) :=
  Sum (Introspection.Pending base) (Chain.Pending (Introspection.Pending base))

/-- Registers the introspection authenticator, unless its identifier is
taken. -/
def registerIntrospection (gateway : Gateway base) : Option (Gateway base) :=
  (gateway.roster.register Introspection.identifier
    (Introspection.authenticator base gateway.options)).map
      fun roster => { gateway with roster }

/-- Registers an authenticator of fixed behaviour, unless its identifier is
taken. -/
def registerFixed (gateway : Gateway base) (behaviour : Authenticator.Behaviour) :
    Option (Gateway base) :=
  (gateway.roster.register behaviour.id (Authenticator.fixed _ behaviour)).map
    fun roster => { gateway with roster }

def start (gateway : Gateway base) (matter : Matter) (session : Session) (world : World) :
    Stretch (Phase base) Judgement :=
  match matter with
  | .inquiry inquiry =>
      (Introspection.start base gateway.options gateway.settings inquiry session world).andThen
        .inl fun judgement world => (.done judgement, world)
  | .petition petition =>
      (Chain.start gateway.roster gateway.settings petition session world).andThen
        .inr fun judgement world => (.done judgement, world)

def callerOf : Matter → Caller
  | .inquiry inquiry => inquiry.caller
  | .petition petition => petition.caller

def resume (gateway : Gateway base) (matter : Matter) (phase : Phase base) (world : World) :
    Stretch (Phase base) Judgement :=
  match phase, matter with
  | .inl pending, matter =>
      (Introspection.resume base (callerOf matter) pending world).andThen
        .inl fun judgement world => (.done judgement, world)
  | .inr pending, .petition petition =>
      (Chain.resume gateway.roster gateway.settings petition pending world).andThen
        .inr fun judgement world => (.done judgement, world)
  | .inr _, .inquiry _ => (.done (.ok .notResponsible, {}), world)

/-- The judgement on one matter, with nobody else about. -/
def judge (gateway : Gateway base) (matter : Matter) (session : Session) :
    Option (Judgement × Gateway base) :=
  (Stretch.finish (gateway.resume matter) patience
    (gateway.start matter session gateway.world)).map
      fun (judgement, world) => (judgement, { gateway with world })

/-- The judgements on several matters, each in a new session and beginning at
its own instant, with the worlds of their ends. -/
def judgeAll (gateway : Gateway base) (matters : List (Instant × Matter))
    (ties : Timeline.Ties := .firstSet) : Option (List (Judgement × World) × Gateway base) :=
  (Timeline.complete gateway.world (matters.map fun (begins, matter) =>
    { caller := callerOf matter
      begins
      start := gateway.start matter {}
      resume := gateway.resume matter }) ties).map
        fun (results, world) => (results, { gateway with world })

end Gateway

end BearerAuth
