import BearerAuth.Settings.Store
import BearerAuth.World

/-!
# Authenticators

An authenticator judges requests.  It can tell whether a configuration suits
it without judging anything, and it may have to wait for others while it
judges; its phases are those of the whole family it belongs to.
-/

namespace BearerAuth

/-- A judgement: the verdict, or the message with which the authenticator
broke down, and the session as it is then. -/
abbrev Judgement := Except Bytes Verdict × Session

/-- What an authenticator is asked: to judge a request under a rule, with the
rule's configuration text for it, for a caller. -/
structure Inquiry where
  caller : Caller := {}
  request : Request
  ruleId : Bytes
  config : Bytes
  deriving DecidableEq, Repr

/-- An authenticator whose pauses are of type `φ`. -/
structure Authenticator (φ : Type) where
  validate : Settings.Store → Bytes → World → Verdict × World
  start : Settings.Store → Inquiry → Session → World → Stretch φ Judgement
  resume : Caller → φ → World → Stretch φ Judgement

namespace Authenticator

/-- What an authenticator of fixed behaviour does: break down, when there is a
text for that, or give a verdict; on success the session has its subject. -/
structure Behaviour where
  id : Bytes
  verdict : Verdict := .success
  subject : Bytes := []
  breakdown : Bytes := []
  deriving DecidableEq, Repr

/-- The configuration that authenticators of fixed behaviour refuse. -/
def refusedConfig : Bytes := utf8 "bad"

/-- An authenticator that behaves the same whatever it is asked, and never
waits.  The message of a breakdown ends at its first NUL. -/
def fixed (φ : Type) (behaviour : Behaviour) : Authenticator φ where
  validate _ config world :=
    if config = refusedConfig then
      (.failure .misconfigured (behaviour.id ++ utf8 ": bad config"), world)
    else (.success, world)
  start _ _ session world :=
    if !behaviour.breakdown.isEmpty then
      (.done (.error (Bytes.untilNul behaviour.breakdown), session), world)
    else
      let session :=
        if behaviour.verdict.isSuccess then { session with subject := behaviour.subject }
        else session
      (.done (.ok behaviour.verdict, session), world)
  resume _ _ world := (.done (.ok behaviour.verdict, {}), world)

end Authenticator

end BearerAuth
