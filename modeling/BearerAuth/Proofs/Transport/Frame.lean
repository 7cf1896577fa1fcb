import BearerAuth.Proofs.Transport.Promise
import BearerAuth.Transport.Authorized

/-!
# What exchanges leave alone

To retry exchanges is to write to the journal, and to authorize them is to change grants and to
release callers.  A relation between worlds that none of this disturbs is a `World.Frame`, and when
the stretches of a transport respect it (`Transport.Respects`), so do those of a retried or an
authorized one over it (`Respects.retried`, `Respects.authorized`).
-/

namespace BearerAuth

namespace World

/-- A relation to an earlier world that writing to the journal, changing grants and releasing
callers do not disturb. -/
structure Frame (R : World → World → Prop) : Prop where
  refl : ∀ w, R w w
  trans : ∀ {w w' w''}, R w w' → R w' w'' → R w w''
  note : ∀ w level message, R w (w.note level message)
  setGrant : ∀ w place g, R w (w.setGrant place g)
  release : ∀ w tickets, R w { w with released := tickets }

section

variable {R : World → World → Prop} {w w' : World}

theorem Frame.noted (hR : Frame R) (h : Noted w w') : R w w' := by
  rcases h with rfl | ⟨level, message, rfl⟩
  · exact hR.refl w'
  · exact hR.note w level message

theorem Frame.andThen {φ ψ ρ τ : Type} (hR : Frame R) {stretch : Stretch φ ρ} {within : φ → ψ}
    {next : ρ → World → Stretch ψ τ} (h : R w stretch.2)
    (hnext : ∀ result w', R w' (next result w').2) : R w (stretch.andThen within next).2 := by
  obtain ⟨progress, world⟩ := stretch
  cases progress with
  | done result => exact hR.trans h (hnext result world)
  | paused phase wait => exact h

theorem Frame.publish (hR : Frame R) (place : Nat)
    (outcome : Except Transport.Failure IssuedToken) (w : World) :
    R w (Acquire.publish place outcome w) := by
  rw [Acquire.publish]
  exact hR.trans (hR.trans (hR.note w _ _) (hR.setGrant _ place _)) (hR.release _ _)

end

end World

namespace Transport

/-- Each stretch of an exchange stands in a relation to the world it began in. -/
structure Respects (R : World → World → Prop) (transport : Transport) : Prop where
  start : ∀ caller url request w, R w (transport.start caller url request w).2
  resume : ∀ caller phase w, R w (transport.resume caller phase w).2

section

variable {R : World → World → Prop} {inner base : Transport}

theorem Respects.retried (h : inner.Respects R) (hR : World.Frame R)
    (schedule : Settings.Schedule) : (retried schedule inner).Respects R := by
  have hattempt (caller : Caller) (call : Retry.Call) (count : Nat) (delay : Span) (w : World) :
      R w (Retry.attempt inner schedule caller call count delay w).2 :=
    hR.andThen (h.start caller call.url call.request w) fun reply w' =>
      hR.noted (Retry.settle_noted schedule caller call count delay reply w')
  constructor
  · intro caller url request w
    exact hattempt caller ⟨url, request, w.now⟩ 1 schedule.baseDelay w
  · intro caller phase w
    cases phase with
    | attempting call count delay phase =>
        exact hR.andThen (h.resume caller phase w) fun reply w' =>
          hR.noted (Retry.settle_noted schedule caller call count delay reply w')
    | resting call count delay =>
        simp only [Transport.retried]
        split
        · exact hR.refl w
        · exact hattempt caller call (count + 1) _ w

theorem Respects.acquire_start (h : base.Respects R) (hR : World.Frame R) (place : Nat)
    (caller : Caller) (w : World) : R w (Acquire.start base place caller w).2 := by
  simp only [Acquire.start]
  split
  · exact hR.refl w
  · split
    · exact hR.refl w
    · have hbegun : R w (w.setGrant place (w.grant place).beginFetch) := hR.setGrant w place _
      exact hR.andThen (hR.trans hbegun (h.start ..)) fun reply w' => hR.publish place _ w'

theorem Respects.acquire_resume (h : base.Respects R) (hR : World.Frame R) (place : Nat)
    (caller : Caller) (phase : Acquire.Phase base.Phase) (w : World) :
    R w (Acquire.resume base place caller phase w).2 := by
  cases phase with
  | fetching phase =>
      exact hR.andThen (h.resume caller phase w) fun reply w' => hR.publish place _ w'
  | joining seen =>
      simp only [Acquire.resume, Acquire.await]
      split
      · exact hR.setGrant w place _
      · exact hR.refl w
  | awaiting seen =>
      simp only [Acquire.resume, Acquire.conclude]
      split
      · exact hR.refl w
      · exact hR.setGrant w place _
  | returning ending =>
      cases ending with
      | abandoned => exact h.acquire_start hR place caller w
      | refreshed => exact hR.refl w
      | failed failure => exact hR.refl w
      | canceled => exact hR.refl w
      | timedOut => exact hR.refl w

theorem Respects.authorized (h : base.Respects R) (hR : World.Frame R) (place : Nat) :
    (authorized base place).Respects R := by
  have hproceed (url : Url) (request : Request) (acquired : Acquire.Result) (w : World) :
      R w (Authorized.proceed (φ := base.Phase) url request acquired w).2 := by
    cases acquired with
    | error failure => exact hR.refl w
    | ok ready => exact hR.refl w
  constructor
  · intro caller url request w
    exact hR.andThen (h.acquire_start hR place caller w) (hproceed url request)
  · intro caller phase w
    cases phase with
    | acquiring url request phase =>
        exact hR.andThen (h.acquire_resume hR place caller phase w) (hproceed url request)
    | acquired url request => exact hR.refl w
    | bearing url request => exact hR.andThen (h.start ..) fun reply w' => hR.refl w'
    | sending phase => exact hR.andThen (h.resume caller phase w) fun reply w' => hR.refl w'

end

end Transport

end BearerAuth
