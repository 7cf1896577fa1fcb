import BearerAuth.Transport.Basic

/-!
# Scripted peers

A script lists the steps that a peer takes, one for each exchange; the last
one is taken again and again.  A URL may have a route of its own, with steps
that no other URL uses up.
-/

namespace BearerAuth

namespace Transport

/-- One step of a script: a delay, then a response or a failure. -/
structure Step where
  delay : Span := 0
  fail : Option Reason := none
  message : Bytes := utf8 "scripted failure"
  response : Response := {}
  deriving DecidableEq, Repr

/-- Steps for all URLs, and routes for those that have steps of their own. -/
structure Script where
  steps : List Step := []
  routes : List (Bytes × List Step) := []
  deriving DecidableEq, Repr

namespace Step

def reply (step : Step) : Reply :=
  match step.fail with
  | some reason => .error (Failure.saying reason step.message)
  | none => .ok step.response

def delivery (step : Step) : Delivery := { delay := step.delay, reply := step.reply }

end Step

namespace Script

/-- The route of a URL, when it has one of its own. -/
def route (script : Script) (url : Url) : Option (Bytes × List Step) :=
  script.routes.find? fun route => route.1 == url.print

def lane (script : Script) (url : Url) : List Step :=
  match script.route url with
  | none => script.steps
  | some (_, steps) => steps

/-- Two URLs use up the same steps. -/
def sharesLane (script : Script) (url other : Url) : Bool :=
  match script.route url, script.route other with
  | none, none => true
  | some (text, _), some (text', _) => text == text'
  | _, _ => false

/-- The failure when there is no step to take. -/
def exhausted : Failure := ⟨.protocol, utf8 "no scripted step"⟩

def peer (script : Script) : Peer := fun history exchange =>
  let lane := script.lane exchange.url
  let taken := (history.filter fun earlier => script.sharesLane earlier.url exchange.url).length
  match lane[min taken (lane.length - 1)]? with
  | none => .error exhausted
  | some step => .ok step.delivery

end Script

end Transport

end BearerAuth
