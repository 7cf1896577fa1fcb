import BearerAuth.Proofs.Introspection.Deadline
import BearerAuth.Proofs.Timeline.Step
import BearerAuth.Proofs.Transport.Attempts

/-!
# What exchanges spare

Exchanges send requests, write to the journal and change grants.  The pool with its queue and
the list of the handlers that were called are not their business: the wire spares them, and so
do retries and authorized exchanges over a transport that does (`route_sparing`).  Of a call of
introspection only the look-up of its route may change the pool (`ask_spares`).  A step of a
timeline spares what the work in it spares (`Timeline.Next.spared`).
-/

namespace BearerAuth

open Transport

/-- Pool, queue and the list of the handlers that were called are the same. -/
structure World.Spared (w w' : World) : Prop where
  pool : w'.pool = w.pool
  filed : w'.filed = w.filed
  called : w'.called = w.called

section

variable {w w' w'' : World}

theorem World.Spared.refl (w : World) : World.Spared w w := ⟨rfl, rfl, rfl⟩

theorem World.Spared.trans (h : World.Spared w w') (h' : World.Spared w' w'') :
    World.Spared w w'' :=
  ⟨h'.pool.trans h.pool, h'.filed.trans h.filed, h'.called.trans h.called⟩

theorem spared_frame : World.Frame World.Spared where
  refl := .refl
  trans := .trans
  note _ _ _ := ⟨rfl, rfl, rfl⟩
  setGrant _ _ _ := ⟨rfl, rfl, rfl⟩
  release _ _ := ⟨rfl, rfl, rfl⟩

theorem World.Noted.spared (h : World.Noted w w') : World.Spared w w' := spared_frame.noted h

end

/-! ## Steps -/

/-- A step spares what the work in it spares: that of a job which begins, or goes on. -/
theorem Timeline.Next.spared {φ ρ : Type} {label : Option Ticket} {t t' : Timeline φ ρ}
    (h : Next label t t')
    (hstart : ∀ (i : Ticket) (job : Job φ ρ), label = some i → t.jobs[i]? = some job →
      Begins i t t' → World.Spared t.world (job.start t.world).2)
    (hresume : ∀ (i : Ticket) (job : Job φ ρ) phase, t.jobs[i]? = some job →
      World.Spared t.world (job.resume phase t.world).2) :
    World.Spared t.world t'.world := by
  cases label with
  | none =>
      cases h with
      | passage => exact ⟨rfl, rfl, rfl⟩
      | cancellation => exact ⟨rfl, rfl, rfl⟩
  | some i =>
      have hturned := h.turned
      cases hturned with
      | nobody => exact .refl _
      | @somebody job slot slot' w' hjob hslot _ hwork =>
          suffices hspared : World.Spared t.world w' from
            ⟨hspared.pool, hspared.filed, hspared.called⟩
          cases slot with
          | idle since =>
              by_cases hearly : t.world.now < job.begins
              · rw [work_early hearly] at hwork
                obtain ⟨-, rfl⟩ := Prod.mk.inj hwork
                exact .refl _
              · rw [work_begin hearly] at hwork
                obtain ⟨-, rfl⟩ := Prod.mk.inj hwork
                refine hstart i job rfl hjob ⟨h, ⟨since, hslot⟩, ?_⟩
                intro job' hjob'
                obtain rfl := Option.some.inj (hjob.symm.trans hjob')
                exact Int.not_lt.mp hearly
          | waiting phase wait since =>
              obtain ⟨-, rfl⟩ := Prod.mk.inj hwork
              exact hresume i job phase hjob
          | ended result world =>
              obtain ⟨-, rfl⟩ := Prod.mk.inj hwork
              exact .refl _

/-! ## Transports -/

/-- Each stretch of an exchange spares what is not its business. -/
structure Transport.Sparing (transport : Transport) : Prop where
  start : ∀ caller url request w, World.Spared w (transport.start caller url request w).2
  resume : ∀ caller phase w, World.Spared w (transport.resume caller phase w).2

theorem wire_sparing (peer : Peer) : (wire peer).Sparing where
  start caller url request w := by
    rw [wire_start_world]
    exact ⟨rfl, rfl, rfl⟩
  resume caller reply w := .refl w

theorem Transport.Sparing.respects {transport : Transport} (h : transport.Sparing) :
    transport.Respects World.Spared := ⟨h.start, h.resume⟩

theorem Transport.Respects.sparing {transport : Transport} (h : transport.Respects World.Spared) :
    transport.Sparing := ⟨h.start, h.resume⟩

theorem retried_sparing {base : Transport} (h : base.Sparing) (schedule : Settings.Schedule) :
    (retried schedule base).Sparing :=
  (h.respects.retried spared_frame schedule).sparing

theorem authorized_sparing {base : Transport} (h : base.Sparing) (place : Nat) :
    (authorized base place).Sparing :=
  (h.respects.authorized spared_frame place).sparing

/-! ## Introspection -/

namespace Introspection

section

variable {base : Transport} {w : World} {policy : Settings.Policy} {schedule : Settings.Schedule}

theorem route_sparing (h : base.Sparing) (route : Route) : (route.transport base).Sparing := by
  cases route with
  | direct => exact retried_sparing h _
  | preAuthorized line => exact retried_sparing (authorized_sparing h line.grant) _

theorem finish_spares (policy : Settings.Policy) (ruleId : Bytes) (session : Session)
    (reply : Reply) (w : World) :
    World.Spared w (finish policy ruleId session reply w : Stretch (Pending base) Judgement).2 :=
  (conclude_noted policy ruleId session reply w).spared

theorem ask_spares (h : base.Sparing) (options : Options) (token : Bytes) (inquiry : Inquiry)
    (session : Session) :
    World.Spared (routeFor options policy schedule w).2
      (ask base options policy schedule token inquiry session w).2 :=
  spared_frame.andThen ((route_sparing h _).start ..) (finish_spares policy inquiry.ruleId session)

theorem resume_spares (h : base.Sparing) (caller : Caller) (pending : Pending base) (w : World) :
    World.Spared w (resume base caller pending w).2 :=
  spared_frame.andThen ((route_sparing h pending.route).resume ..)
    (finish_spares pending.policy pending.ruleId pending.session)

end

end Introspection

end BearerAuth
