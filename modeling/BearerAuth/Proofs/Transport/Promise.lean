import BearerAuth.Proofs.Alone
import BearerAuth.Proofs.Timeline.Guarantee
import BearerAuth.Transport.Retry

/-!
# Promises of transports

A transport that is asked for one exchange for one caller keeps a promise when
each of its stretches does (`Honours`).  Retrying asks for the same exchange
again and again and writes to the journal in between, so it keeps what a single
attempt keeps (`Honours.retried`).

What follows the reply to an attempt is taken apart once, by `Retry.settle_cases`.
-/

namespace BearerAuth

namespace Transport

/-- Each stretch of an exchange changes the world as `step` allows and pauses as
`mine` allows; its reply is one that `gives` allows. -/
structure Honours (transport : Transport) (caller : Caller) (url : Url) (request : Request)
    (good : World → Prop) (step : World → World → Prop)
    (mine : transport.Phase → World → Prop) (gives : Reply → World → Prop) : Prop where
  start : ∀ {w}, good w → (transport.start caller url request w).Keeps step mine gives w
  resume : ∀ {phase w}, good w → mine phase w →
    (transport.resume caller phase w).Keeps step mine gives w

namespace Retry

/-! ## What follows a reply -/

/-- Neither the limit nor the deadline is found to speak against a retry. -/
structure Allows (schedule : Settings.Schedule) (caller : Caller) (call : Call) (delay : Span)
    (failed : Instant) : Prop where
  limit : exceedsLimit schedule call delay failed = false
  deadline : meetsDeadline caller delay failed = false

/-- What follows the reply to an attempt ends the call and notes something at most, or the attempt
has failed and the call rests for the delay. -/
theorem settle_cases {φ : Type} (schedule : Settings.Schedule) (caller : Caller) (call : Call)
    (count : Nat) (delay : Span) (reply : Reply) (w : World) :
    (∃ final w', (settle schedule caller call count delay reply w : Stretch (Phase φ) Reply) =
      (.done final, w') ∧ World.Noted w w') ∨
    ∃ failure, reply = .error failure ∧ Allows schedule caller call delay w.now ∧
      (settle schedule caller call count delay reply w : Stretch (Phase φ) Reply) =
        (.paused (.resting call count delay)
          { timer := some (Clock.after w.now delay), cancel := caller.cancelAt },
         noteRetry call count delay failure w) := by
  cases reply with
  | ok response => exact .inl ⟨_, _, rfl, .inl rfl⟩
  | error failure =>
      simp only [settle]
      split
      · exact .inl ⟨_, _, rfl, .inl rfl⟩
      · split
        · exact .inl ⟨_, _, rfl, .inr ⟨_, _, rfl⟩⟩
        · next hlimit =>
            split
            · exact .inl ⟨_, _, rfl, .inl rfl⟩
            · next hdeadline =>
                split
                · exact .inl ⟨_, _, rfl, .inl rfl⟩
                · exact .inr ⟨failure, rfl,
                    ⟨eq_false_of_ne_true hlimit, eq_false_of_ne_true hdeadline⟩, rfl⟩

theorem settle_noted {φ : Type} (schedule : Settings.Schedule) (caller : Caller) (call : Call)
    (count : Nat) (delay : Span) (reply : Reply) (w : World) :
    World.Noted w (settle schedule caller call count delay reply w :
      Stretch (Phase φ) Reply).2 := by
  obtain ⟨final, w', hsettle, hnoted⟩ | ⟨failure, -, -, hsettle⟩ :=
    @settle_cases φ schedule caller call count delay reply w
  · rw [hsettle]
    exact hnoted
  · rw [hsettle]
    exact .inr ⟨_, _, rfl⟩

/-! ## One request -/

/-- The call is about one request, and the attempt under way as promised. -/
def Mine {φ : Type} (url : Url) (request : Request) (mine : φ → World → Prop) :
    Phase φ → World → Prop
  | .attempting call _ _ phase, w => call.url = url ∧ call.request = request ∧ mine phase w
  | .resting call _ _, _ => call.url = url ∧ call.request = request

theorem Mine.mono {φ : Type} {url : Url} {request : Request} {mine : φ → World → Prop}
    {phase : Phase φ} {w w' : World} (h : Mine url request mine phase w)
    (hmine : ∀ {phase}, mine phase w → mine phase w') : Mine url request mine phase w' := by
  cases phase with
  | attempting call count delay phase => exact ⟨h.1, h.2.1, hmine h.2.2⟩
  | resting call count delay => exact h

end Retry

section

variable {inner : Transport} {caller : Caller} {url : Url} {request : Request}
  {good : World → Prop} {step : World → World → Prop} {mine : inner.Phase → World → Prop}
  {gives : Reply → World → Prop}

/-- What follows a reply writes to the journal at most. -/
theorem settle_keeps {call : Retry.Call} (hurl : call.url = url) (hrequest : call.request = request)
    (hnote : ∀ {w} level message, good w → step w (w.note level message))
    (hrefl : ∀ {w}, good w → step w w) (schedule : Settings.Schedule) (attempt : Nat)
    (delay : Span) (reply : Reply) {w : World} (hw : good w) :
    (Retry.settle schedule caller call attempt delay reply w).Keeps step
      (Retry.Mine url request mine) (fun _ _ => True) w := by
  obtain ⟨final, w', hsettle, rfl | ⟨level, message, rfl⟩⟩ | ⟨failure, -, -, hsettle⟩ :=
    @Retry.settle_cases inner.Phase schedule caller call attempt delay reply w
  · rw [hsettle]
    exact ⟨hrefl hw, trivial⟩
  · rw [hsettle]
    exact ⟨hnote _ _ hw, trivial⟩
  · rw [hsettle]
    exact ⟨hnote _ _ hw, hurl, hrequest⟩

/-- Retrying keeps the promise of a single attempt. -/
theorem Honours.retried (h : inner.Honours caller url request good step mine gives)
    (schedule : Settings.Schedule) (hgood : ∀ {w w'}, good w → step w w' → good w')
    (hnote : ∀ {w} level message, good w → step w (w.note level message))
    (hrefl : ∀ {w}, good w → step w w)
    (htrans : ∀ {a b c}, step a b → step b c → step a c) :
    (retried schedule inner).Honours caller url request good step
      (Retry.Mine url request mine) (fun _ _ => True) := by
  have hsettle (call : Retry.Call) (hurl : call.url = url) (hrequest : call.request = request)
      (count : Nat) (delay : Span) {w : World} (hw : good w) {stretch : Stretch inner.Phase Reply}
      (hstretch : stretch.Keeps step mine gives w) :
      (stretch.andThen (.attempting call count delay)
        (Retry.settle schedule caller call count delay)).Keeps step
          (Retry.Mine url request mine) (fun _ _ => True) w :=
    hstretch.andThen htrans (fun _ _ _ hmine => ⟨hurl, hrequest, hmine⟩)
      fun reply _ hs _ =>
        settle_keeps hurl hrequest hnote hrefl schedule count delay reply (hgood hw hs)
  constructor
  · intro w hw
    exact hsettle ⟨url, request, w.now⟩ rfl rfl 1 schedule.baseDelay hw (h.start hw)
  · intro phase w hw hmine
    cases phase with
    | attempting call count delay phase =>
        exact hsettle call hmine.1 hmine.2.1 count delay hw (h.resume hw hmine.2.2)
    | resting call count delay =>
        obtain ⟨rfl, rfl⟩ := hmine
        simp only [Transport.retried]
        split
        · exact ⟨hrefl hw, trivial⟩
        · exact hsettle call rfl rfl (count + 1) _ hw (h.start hw)

end

end Transport

end BearerAuth
