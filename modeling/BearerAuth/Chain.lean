import BearerAuth.Authenticator

/-!
# Chains of authenticators

A rule names authenticators to try in order.  One that is not responsible
passes the request on; the first other verdict is the verdict of the chain.
A handler that names no registered authenticator, or a disabled one, ends the
chain as well.
-/

namespace BearerAuth

/-- The registered authenticators, by identifier. -/
abbrev Roster (φ : Type) := List (Bytes × Authenticator φ)

namespace Roster

def find? {φ : Type} (roster : Roster φ) (id : Bytes) : Option (Authenticator φ) :=
  match roster with
  | [] => none
  | (key, authenticator) :: rest => if key = id then some authenticator else find? rest id

/-- Registers an authenticator, unless its identifier is taken. -/
def register {φ : Type} (roster : Roster φ) (id : Bytes) (authenticator : Authenticator φ) :
    Option (Roster φ) :=
  match roster.find? id with
  | some _ => none
  | none => some (roster ++ [(id, authenticator)])

def identifiers {φ : Type} (roster : Roster φ) : List Bytes :=
  Bytes.sortOn id (roster.map Prod.fst)

end Roster

namespace Chain

/-! ## Verdicts of the chain itself -/

def unknown (ruleId id : Bytes) : Verdict :=
  .failure .misconfigured
    (utf8 "rule " ++ ruleId ++ utf8 " references unknown authenticator " ++ id)

/-- The verdict on a handler whose authenticator is disabled. -/
def disabled (id : Bytes) : Verdict :=
  .failure .notEnabled (utf8 "authenticator " ++ id ++ utf8 " is disabled")

def noHandlers (ruleId : Bytes) : Verdict :=
  .failure .misconfigured (utf8 "rule " ++ ruleId ++ utf8 " has no authenticators")

/-! ## Validation -/

/-- Validates handlers in order; the first verdict that is not success is the
one that counts. -/
def validateHandlers {φ : Type} (roster : Roster φ) (settings : Settings.Store)
    (ruleId : Bytes) : List Handler → World → Verdict × World
  | [], world => (.success, world)
  | handler :: rest, world => match roster.find? handler.authenticator with
    | none => (unknown ruleId handler.authenticator, world)
    | some authenticator => match authenticator.validate settings handler.config world with
      | (.success, world) => validateHandlers roster settings ruleId rest world
      | (verdict, world) => (verdict, world)

/-- Validates a rule: it has handlers, and all of them are valid. -/
def validate {φ : Type} (roster : Roster φ) (settings : Settings.Store) (rule : Rule)
    (world : World) : Verdict × World :=
  if rule.handlers.isEmpty then (noHandlers rule.id, world)
  else validateHandlers roster settings rule.id rule.handlers world

/-! ## Dispatch -/

/-- What a chain is asked: to judge a request under a rule, for a caller. -/
structure Petition where
  caller : Caller := {}
  request : Request
  rule : Rule
  deriving DecidableEq, Repr

/-- A chain that waits for one of its handlers; `rest` comes after it. -/
structure Pending (φ : Type) where
  handler : Handler
  rest : List Handler
  phase : φ

/-- What the authenticator of a handler is asked for a petition. -/
def Petition.inquiry (petition : Petition) (handler : Handler) : Inquiry :=
  { caller := petition.caller
    request := petition.request
    ruleId := petition.rule.id
    config := handler.config }

/-- Notes that a handler's authenticator is not responsible. -/
def notePassed (ruleId : Bytes) (handler : Handler) (world : World) : World :=
  world.note .debug (utf8 "rule " ++ ruleId ++ utf8 ": authenticator " ++
    handler.authenticator ++ utf8 " not responsible, trying next")

/-- Notes that no handler is left. -/
def noteExhausted (ruleId : Bytes) (world : World) : World :=
  world.note .debug (utf8 "rule " ++ ruleId ++ utf8 ": no authenticator was responsible")

/-- Continues with `next` when a handler's authenticator is not responsible;
any other judgement is that of the chain. -/
def afterHandler {φ : Type} (ruleId : Bytes) (handler : Handler) (rest : List Handler)
    (next : Session → World → Stretch (Pending φ) Judgement)
    (stretch : Stretch φ Judgement) : Stretch (Pending φ) Judgement :=
  stretch.andThen (fun phase => ⟨handler, rest, phase⟩) fun judgement world =>
    match judgement with
    | (.ok .notResponsible, session) => next session (notePassed ruleId handler world)
    | other => (.done other, world)

def tryAll {φ : Type} (roster : Roster φ) (settings : Settings.Store) (petition : Petition) :
    List Handler → Session → World → Stretch (Pending φ) Judgement
  | [], session, world =>
      (.done (.ok .notResponsible, session), noteExhausted petition.rule.id world)
  | handler :: rest, session, world => match roster.find? handler.authenticator with
    | none => (.done (.ok (unknown petition.rule.id handler.authenticator), session), world)
    | some authenticator =>
        if !settings.isEnabled handler.authenticator then
          (.done (.ok (disabled handler.authenticator), session), world)
        else
          let world := { world with called := world.called ++ [handler] }
          afterHandler petition.rule.id handler rest (tryAll roster settings petition rest)
            (authenticator.start settings (petition.inquiry handler) session world)

def start {φ : Type} (roster : Roster φ) (settings : Settings.Store) (petition : Petition)
    (session : Session) (world : World) : Stretch (Pending φ) Judgement :=
  tryAll roster settings petition petition.rule.handlers session world

def resume {φ : Type} (roster : Roster φ) (settings : Settings.Store) (petition : Petition)
    (pending : Pending φ) (world : World) : Stretch (Pending φ) Judgement :=
  match roster.find? pending.handler.authenticator with
  | none =>
      (.done (.ok (unknown petition.rule.id pending.handler.authenticator), {}), world)
  | some authenticator =>
      afterHandler petition.rule.id pending.handler pending.rest
        (tryAll roster settings petition pending.rest)
        (authenticator.resume petition.caller pending.phase world)

end Chain

end BearerAuth
