import BearerAuth.Proofs.Transport.Attempts
import BearerAuth.Transport.Script

/-!
# Canceled calls

Two callers make the same call, and they differ in one thing: one of them is canceled at
some instant.  A transport heeds the cancellation (`Heeds`) when the exchange of the
canceled caller is that of the other one if this ends before the cancellation, and ends
with the cancellation if it does not.  The wire heeds cancellations, and so do the courses
of retried calls: whatever a call is doing when its caller is canceled, it ends there and
then (`cancellation_ends_call`).
-/

namespace BearerAuth

open Stretch

def Caller.canceledAt (caller : Caller) (cancel : Instant) : Caller :=
  { caller with cancelAt := some cancel }

theorem Caller.canceled_canceledAt (caller : Caller) (cancel now : Instant) :
    (caller.canceledAt cancel).canceled now = decide (cancel ≤ now) :=
  rfl

theorem World.canceled_of_none {w : World} {caller : Caller} (h : caller.cancelAt = none) :
    w.canceled caller = false := by
  simp [World.canceled, Caller.canceled, h]

namespace Transport

/-- How the exchanges of a caller that is canceled at an instant compare with those of the
same caller when it is not. -/
structure Heeds (transport : Transport) (caller : Caller) (cancel : Instant) (url : Url)
    (request : Request) : Prop where
  /-- What has been sent stays sent. -/
  grows : ∀ {w reply w'}, transport.Replies caller url request w reply w' →
    w.sent <+: w'.sent
  /-- A cancellation after the end changes nothing. -/
  before : ∀ {w reply w'}, w.agenda = [] → transport.Replies caller url request w reply w' →
    w'.now < cancel → transport.Replies (caller.canceledAt cancel) url request w reply w'
  /-- A cancellation up to the end is the end. -/
  after : ∀ {w reply w'}, w.agenda = [] → transport.Replies caller url request w reply w' →
    cancel ≤ w'.now → ∃ w'', transport.Replies (caller.canceledAt cancel) url request w
      (.error .requestCanceled) w'' ∧ w''.now = max w.now cancel ∧ w''.sent <+: w'.sent

/-! ## Cancellations on the wire -/

section

variable {peer : Peer} {caller : Caller} {cancel : Instant} {url : Url} {request : Request}
  {delivery : Delivery} {w w' : World} {reply : Reply}

/-- The world with one more exchange, sent now. -/
def Wire.dispatch (url : Url) (request : Request) (w : World) : World :=
  { w with sent := w.sent ++ [⟨w.now, url, request⟩] }

theorem wire_start_eq (caller : Caller)
    (hpeer : peer w.sent ⟨w.now, url, request⟩ = .ok delivery) :
    (wire peer).start caller url request w =
      Wire.deliver caller delivery (Wire.dispatch url request w) := by
  simp only [wire, hpeer]
  rfl

/-- A delivery to a caller that is not canceled is there at once, or comes after a pause
that a cancellation cuts short. -/
theorem deliver_cases (delivery : Delivery) (hcaller : caller.cancelAt = none)
    (w : World) :
    (∃ reply, Wire.deliver caller delivery w = (.done reply, w) ∧
      ∀ cancel, w.canceled (caller.canceledAt cancel) = false →
        Wire.deliver (caller.canceledAt cancel) delivery w = (.done reply, w)) ∨
    ∃ timer reply, Wire.deliver caller delivery w = (.paused reply { timer := some timer }, w) ∧
      0 < delivery.delay ∧ timer ≤ Clock.after w.now delivery.delay ∧
      ∀ cancel, w.canceled (caller.canceledAt cancel) = false →
        Wire.deliver (caller.canceledAt cancel) delivery w =
          (.paused reply { timer := some timer, cancel := some cancel }, w) := by
  have hcanceled : w.canceled caller = false := World.canceled_of_none hcaller
  simp only [Wire.deliver, hcanceled, Bool.false_eq_true, if_false]
  by_cases hexpired : caller.expired w.now
  · refine .inl ⟨.error .deadlineExceeded, by simp [hexpired], ?_⟩
    intro cancel hlater
    have hsame : (caller.canceledAt cancel).expired w.now = true := hexpired
    simp [hlater, hsame]
  · have hsame (cancel : Instant) : (caller.canceledAt cancel).expired w.now = false :=
      Bool.eq_false_iff.mpr hexpired
    by_cases hdelay : delivery.delay ≤ 0
    · refine .inl ⟨delivery.reply, by simp [hexpired, hdelay], ?_⟩
      intro cancel hlater
      simp [hlater, hsame, hdelay]
    · refine .inr ⟨_, _, by simp only [hexpired, hdelay, if_false, hcaller]; rfl,
        Int.not_le.mp hdelay, ?_, ?_⟩
      · simp only [Wire.ending]
        split
        · exact Int.le_refl _
        · split
          · next hlt => exact Int.le_of_lt hlt
          · exact Int.le_refl _
      · intro cancel hlater
        simp only [hlater, hsame, hdelay, if_false, Bool.false_eq_true]
        rfl

theorem arrive_of_canceled (h : w.canceled caller = true) :
    Wire.arrive caller reply w = (.done (.error .requestCanceled), w) := by
  rw [Wire.arrive, if_pos h]

theorem arrive_of_not_canceled (h : w.canceled caller = false) :
    Wire.arrive caller reply w = (.done reply, w) := by
  rw [Wire.arrive, if_neg (Bool.eq_false_iff.mp h)]

theorem wire_ends_of_arrive {wait : Wait} {instant : Instant} {final : Reply} (peer : Peer)
    (hends : wait.ends = some instant)
    (harrive : Wire.arrive caller reply (w.advanceTo instant) = (.done final, w')) :
    Ends ((wire peer).resume caller) (.paused reply wait, w) final w' := by
  refine .paused hends ?_
  have hresume : (wire peer).resume caller reply (w.advanceTo instant) = (.done final, w') :=
    harrive
  rw [hresume]
  exact ends_done

theorem wire_replies (peer : Peer) (caller : Caller) (url : Url) (request : Request) (w : World) :
    ∃ reply w', (wire peer).Replies caller url request w reply w' := by
  have hdeliver (delivery : Delivery) (w : World) : ∃ reply w',
      Ends ((wire peer).resume caller) (Wire.deliver caller delivery w) reply w' := by
    simp only [Wire.deliver]
    split
    · exact ⟨_, _, ends_done⟩
    · split
      · exact ⟨_, _, ends_done⟩
      · split
        · exact ⟨_, _, ends_done⟩
        · obtain ⟨instant, hends⟩ : ∃ instant, Wait.ends
              { timer := some (Wire.ending caller (Clock.after w.now delivery.delay)
                  delivery.reply).1, cancel := caller.cancelAt } = some instant := by
            cases hcancel : caller.cancelAt <;> exact ⟨_, rfl⟩
          exact ⟨_, _, .paused hends ends_done⟩
  simp only [Replies]
  cases hpeer : peer w.sent ⟨w.now, url, request⟩ with
  | error failure =>
      simp only [wire, hpeer]
      exact ⟨_, _, ends_done⟩
  | ok delivery =>
      rw [wire_start_eq caller hpeer]
      exact hdeliver delivery _

theorem wire_replies_soon (hcaller : caller.cancelAt = none)
    (hpeer : peer w.sent ⟨w.now, url, request⟩ = .ok delivery)
    (hdelay : delivery.delay < 2 ^ 61) (hlow : -(2 ^ 61) < w.now) (hhigh : w.now < 2 ^ 62)
    (h : (wire peer).Replies caller url request w reply w') : w'.now < w.now + 2 ^ 61 := by
  rw [Replies, wire_start_eq caller hpeer] at h
  rcases deliver_cases delivery hcaller (Wire.dispatch url request w) with
    ⟨reply', hdone, -⟩ | ⟨timer, reply', hpaused, hdelayed, htimer, -⟩
  · rw [hdone] at h
    obtain ⟨-, rfl⟩ := h.unique ends_done
    show w.now < w.now + 2 ^ 61
    lia
  · rw [hpaused] at h
    obtain ⟨-, rfl⟩ := h.unique (.paused rfl ends_done)
    have hnow : (Wire.dispatch url request w).now = w.now := rfl
    rw [hnow, Clock.after_of_fits (by lia) (by lia)] at htimer
    show max w.now timer < w.now + 2 ^ 61
    lia

/-- **The wire heeds cancellations** when its peer delivers something. -/
theorem wire_heeds (hcaller : caller.cancelAt = none) (cancel : Instant)
    (hpeer : ∀ history instant, ∃ delivery, peer history ⟨instant, url, request⟩ = .ok delivery) :
    (wire peer).Heeds caller cancel url request := by
  have hcanceled (w : World) (hagenda : w.agenda = []) :
      w.canceled (caller.canceledAt cancel) = decide (cancel ≤ w.now) :=
    World.canceled_eq hagenda _
  constructor
  · intro w reply w' h
    rw [wire_replies_sent h]
    exact List.prefix_append _ _
  · intro w reply w' hagenda h hlt
    have hle := ((wire_keepsTime peer).later h).1
    obtain ⟨delivery, hdelivery⟩ := hpeer w.sent w.now
    have hnot : (Wire.dispatch url request w).canceled (caller.canceledAt cancel) = false :=
      (hcanceled _ hagenda).trans (decide_eq_false (Int.not_le.mpr (Int.lt_of_le_of_lt hle hlt)))
    rw [Replies, wire_start_eq _ hdelivery] at h ⊢
    rcases deliver_cases delivery hcaller (Wire.dispatch url request w) with
      ⟨reply', hdone, hsame⟩ | ⟨timer, reply', hpaused, -, -, hsame⟩
    · rw [hdone] at h
      obtain ⟨rfl, rfl⟩ := h.unique ends_done
      rw [hsame cancel hnot]
      exact ends_done
    · rw [hpaused] at h
      obtain ⟨rfl, rfl⟩ := h.unique
        (wire_ends_of_arrive peer rfl (arrive_of_not_canceled (World.canceled_of_none hcaller)))
      have htimer : timer ≤ cancel :=
        Int.le_of_lt (Int.lt_of_le_of_lt (Int.le_max_right _ _) hlt)
      rw [hsame cancel hnot]
      exact wire_ends_of_arrive peer (congrArg some (Int.min_eq_left htimer))
        (arrive_of_not_canceled ((hcanceled ((Wire.dispatch url request w).advanceTo timer)
          hagenda).trans (decide_eq_false (Int.not_le.mpr hlt))))
  · intro w reply w' hagenda h hle
    obtain ⟨delivery, hdelivery⟩ := hpeer w.sent w.now
    have hsent := wire_replies_sent h
    rw [Replies, wire_start_eq _ hdelivery] at h
    simp only [Replies, wire_start_eq (caller.canceledAt cancel) hdelivery]
    by_cases hnow : cancel ≤ w.now
    · have hyes : (Wire.dispatch url request w).canceled (caller.canceledAt cancel) = true :=
        (hcanceled _ hagenda).trans (decide_eq_true hnow)
      simp only [Wire.deliver, hyes, if_true]
      exact ⟨_, ends_done, (Int.max_eq_left hnow).symm, hsent ▸ List.prefix_rfl⟩
    · have hnot : (Wire.dispatch url request w).canceled (caller.canceledAt cancel) = false :=
        (hcanceled _ hagenda).trans (decide_eq_false hnow)
      rcases deliver_cases delivery hcaller (Wire.dispatch url request w) with
        ⟨reply', hdone, hsame⟩ | ⟨timer, reply', hpaused, -, -, hsame⟩
      · rw [hdone] at h
        obtain ⟨rfl, rfl⟩ := h.unique ends_done
        exact absurd hle hnow
      · rw [hpaused] at h
        obtain ⟨rfl, rfl⟩ := h.unique
          (wire_ends_of_arrive peer rfl (arrive_of_not_canceled (World.canceled_of_none hcaller)))
        have htimer : cancel ≤ timer := by
          have hmax : cancel ≤ max w.now timer := hle
          lia
        have hcome : cancel ≤ max w.now cancel := Int.le_max_right _ _
        rw [hsame cancel hnot]
        exact ⟨_, wire_ends_of_arrive peer (congrArg some (Int.min_eq_right htimer))
          (arrive_of_canceled ((hcanceled ((Wire.dispatch url request w).advanceTo cancel)
            hagenda).trans (decide_eq_true hcome))), rfl, List.prefix_rfl⟩

end

/-! ## Cancellations of retried calls -/

namespace Retry

section

variable {inner : Transport} {schedule : Settings.Schedule} {caller : Caller} {call : Call}
  {cancel : Instant} {count : Nat} {w w₁ w' : World} {reply final : Reply}
  {begins : List Instant}

theorem sequel_canceledAt (hcaller : caller.cancelAt = none) (hlt : w.now < cancel) :
    sequel schedule (caller.canceledAt cancel) call count reply w =
      sequel schedule caller call count reply w := by
  have hnever : caller.canceled w.now = false := by simp [Caller.canceled, hcaller]
  have hlater : (caller.canceledAt cancel).canceled w.now = caller.canceled w.now := by
    rw [Caller.canceled_canceledAt, hnever]
    exact decide_eq_false (Int.not_le.mpr hlt)
  cases reply with
  | ok response => rfl
  | error failure =>
      simp only [sequel, hlater]
      rfl

theorem Course.grows
    (hgrows : ∀ {w reply w'}, inner.Replies caller call.url call.request w reply w' →
      w.sent <+: w'.sent)
    (h : Course inner schedule caller call count w begins final w') : w.sent <+: w'.sent := by
  induction h with
  | settled hreplies hsequel =>
      rw [(noted_of_sequel hsequel).sent]
      exact hgrows hreplies
  | interrupted hreplies hsequel =>
      show _ <+: World.sent _
      rw [(noted_of_sequel hsequel).sent]
      exact hgrows hreplies
  | again hreplies hsequel _ _ ih =>
      refine (hgrows hreplies).trans ?_
      rw [← (noted_of_sequel hsequel).sent]
      exact ih

theorem Course.before (hinner : inner.KeepsTime) (hschedule : schedule.Moderate)
    (hheeds : inner.Heeds caller cancel call.url call.request) (hcaller : caller.cancelAt = none)
    (h : Course inner schedule caller call count w begins final w') (hagenda : w.agenda = [])
    (hlt : w'.now < cancel) :
    Course inner schedule (caller.canceledAt cancel) call count w begins final w' := by
  induction h with
  | settled hreplies hsequel =>
      rw [(noted_of_sequel hsequel).sameTime.now] at hlt
      exact .settled (hheeds.before hagenda hreplies hlt)
        ((sequel_canceledAt hcaller hlt).trans hsequel)
  | interrupted _ _ hcancel => exact nomatch hcaller.symm.trans hcancel
  | @again count w w₁ w₂ w₃ reply final wake begins hreplies hsequel _ hcourse ih =>
      have hwake : wake < cancel := Int.lt_of_le_of_lt (hcourse.later hinner hschedule) hlt
      obtain ⟨heq, -⟩ := sequel_rest hsequel
      have hpos := delayAfter_pos hschedule count
      have hlt₁ : w₁.now < cancel := by lia
      have hagenda₂ : w₂.agenda = [] := (noted_of_sequel hsequel).sameTime.agenda.trans
        ((hinner.later hreplies).2.trans hagenda)
      refine .again (hheeds.before hagenda hreplies hlt₁)
        ((sequel_canceledAt hcaller hlt₁).trans hsequel) ?_ (ih hagenda₂ hlt)
      intro instant hsome
      obtain rfl := Option.some.inj hsome
      exact hwake

theorem course_of_canceled (hheeds : inner.Heeds caller cancel call.url call.request)
    (hagenda : w.agenda = []) (hreplies : inner.Replies caller call.url call.request w reply w₁)
    (hle : cancel ≤ w₁.now) :
    ∃ begins w'', Course inner schedule (caller.canceledAt cancel) call count w begins
      (.error .requestCanceled) w'' ∧ w''.now = max w.now cancel ∧ w''.sent <+: w₁.sent := by
  obtain ⟨w'', hcanceled, hnow, hsent⟩ := hheeds.after hagenda hreplies hle
  exact ⟨_, w'', .settled hcanceled rfl, hnow, hsent⟩

/-- A course that does not end before the cancellation ends with it for the canceled
caller. -/
theorem Course.after (hinner : inner.KeepsTime) (hschedule : schedule.Moderate)
    (hheeds : inner.Heeds caller cancel call.url call.request) (hcaller : caller.cancelAt = none)
    (h : Course inner schedule caller call count w begins final w') (hagenda : w.agenda = [])
    (hle : cancel ≤ w'.now) :
    ∃ begins w'', Course inner schedule (caller.canceledAt cancel) call count w begins
      (.error .requestCanceled) w'' ∧ w''.now = max w.now cancel ∧ w''.sent <+: w'.sent := by
  induction h with
  | settled hreplies hsequel =>
      rw [(noted_of_sequel hsequel).sameTime.now] at hle
      rw [(noted_of_sequel hsequel).sent]
      exact course_of_canceled hheeds hagenda hreplies hle
  | interrupted _ _ hcancel => exact nomatch hcaller.symm.trans hcancel
  | @again count w w₁ w₂ w₃ reply final wake begins hreplies hsequel _ hcourse ih =>
      have hsame := noted_of_sequel hsequel
      obtain ⟨hlater, hagenda₁⟩ := hinner.later hreplies
      have hgrows := hcourse.grows hheeds.grows
      have hsent : w₁.sent <+: w₃.sent := hsame.sent ▸ hgrows
      obtain ⟨heq, -⟩ := sequel_rest hsequel
      have hpos := delayAfter_pos hschedule count
      -- The cancellation comes during the attempt, during the rest, or later.
      by_cases hattempt : cancel ≤ w₁.now
      · obtain ⟨begins', w'', hcanceled, hnow, hprefix⟩ :=
          course_of_canceled hheeds hagenda hreplies hattempt
        exact ⟨begins', w'', hcanceled, hnow, hprefix.trans hsent⟩
      · have hlt : w₁.now < cancel := Int.not_le.mp hattempt
        have hreplies' := hheeds.before hagenda hreplies hlt
        have hsequel' := (sequel_canceledAt hcaller hlt).trans hsequel
        by_cases hrest : cancel ≤ wake
        · refine ⟨_, _, .interrupted hreplies' hsequel' rfl hrest, ?_, hsame.sent ▸ hsent⟩
          show cancel = max w.now cancel
          lia
        · obtain ⟨begins', w'', hcanceled, hnow, hprefix⟩ :=
            ih (hsame.sameTime.agenda.trans (hagenda₁.trans hagenda)) hle
          refine ⟨_, w'', .again hreplies' hsequel' ?_ hcanceled, ?_, hprefix⟩
          · intro instant hsome
            obtain rfl := Option.some.inj hsome
            exact Int.not_le.mp hrest
          · rw [hnow]
            show max wake cancel = max w.now cancel
            lia

theorem Course.soon (hinner : inner.KeepsTime) (hschedule : schedule.Moderate)
    (hsoon : ∀ {w reply w'}, call.began ≤ w.now → w.now < call.began + 2 ^ 61 →
      inner.Replies caller call.url call.request w reply w' → w'.now < w.now + 2 ^ 61)
    (h : Course inner schedule caller call count w begins final w') (hbegan : call.began ≤ w.now)
    (hnow : w.now < call.began + 2 ^ 61) : w'.now < call.began + 2 ^ 62 := by
  have hlimit := hschedule.limit_lt
  induction h with
  | settled hreplies hsequel =>
      have hlt := hsoon hbegan hnow hreplies
      have hsame := (noted_of_sequel hsequel).sameTime.now
      lia
  | @interrupted count w w₁ w₂ reply wake instant hreplies hsequel _ hle =>
      obtain ⟨hwake, hrest, -⟩ := sequel_rest hsequel
      show instant < call.began + 2 ^ 62
      lia
  | @again count w w₁ w₂ w₃ reply final wake begins hreplies hsequel _ _ ih =>
      obtain ⟨hwake, hrest, -⟩ := sequel_rest hsequel
      have hpos := delayAfter_pos hschedule count
      have hlater := (hinner.later hreplies).1
      refine ih ?_ ?_
      · show call.began ≤ wake
        lia
      · show wake < call.began + 2 ^ 61
        lia

end

/-! ## The theorem -/

theorem peer_delivers {script : Script} {url : Url} (h : script.lane url ≠ [])
    (history : List Exchange) (instant : Instant) (request : Request) :
    ∃ step ∈ script.lane url,
      script.peer history ⟨instant, url, request⟩ = .ok step.delivery := by
  have hpos := List.length_pos_iff.mpr h
  obtain ⟨step, hstep⟩ : ∃ step, (script.lane url)[min (history.filter fun earlier =>
      script.sharesLane earlier.url url).length ((script.lane url).length - 1)]? = some step :=
    ⟨_, List.getElem?_eq_getElem (by omega)⟩
  refine ⟨step, List.mem_of_getElem? hstep, ?_⟩
  simp only [Script.peer, hstep]

/-- **A cancellation ends a retried call there and then**, and it changes nothing about a
call that has ended.  Run for a caller that nobody cancels, a call over a script ends (and
within its registers, when no step of the script is delayed for too long).  If its caller
is canceled up to that end, it ends as canceled at the instant of the cancellation, or of
its beginning if that is later, and it has sent the first of the same exchanges; if the
cancellation comes after that end, the call ends in the same way, in the same world. -/
theorem cancellation_ends_call {schedule : Settings.Schedule} (hschedule : schedule.Moderate)
    {script : Script} {url : Url} (hlane : script.lane url ≠ []) (request : Request)
    {caller : Caller} (hcaller : caller.cancelAt = none) {w : World} (hagenda : w.agenda = [])
    (hnow : Clock.Moderate w.now) :
    ((∀ step ∈ script.lane url, step.delay < 2 ^ 61) → ∃ reply w',
      (retried schedule (wire script.peer)).Replies caller url request w reply w' ∧
        w'.now < w.now + 2 ^ 62) ∧
    ∀ {reply w'}, (retried schedule (wire script.peer)).Replies caller url request w reply w' →
      w'.now < w.now + 2 ^ 62 → ∀ cancel,
        (cancel ≤ w'.now → ∃ w'', (retried schedule (wire script.peer)).Replies
          (caller.canceledAt cancel) url request w (.error .requestCanceled) w'' ∧
            w''.now = max w.now cancel ∧ w''.sent <+: w'.sent) ∧
        (w'.now < cancel → (retried schedule (wire script.peer)).Replies
          (caller.canceledAt cancel) url request w reply w') := by
  have hinner := wire_keepsTime script.peer
  constructor
  · intro hdelays
    obtain ⟨begins, reply, w', hcourse⟩ := course_of_attempts_end hinner hschedule hagenda
      fun w _ => wire_replies script.peer caller url request w
    have hend : w'.now < w.now + 2 ^ 62 := by
      obtain ⟨hlow, hhigh⟩ := hnow
      refine hcourse.soon hinner hschedule ?_ (Int.le_refl _) ?_
      · intro w₁ reply₁ w₂ hbegan hlt hreplies
        obtain ⟨step, hstep, hpeer⟩ := peer_delivers hlane w₁.sent w₁.now request
        exact wire_replies_soon hcaller hpeer (hdelays step hstep) (by lia) (by lia) hreplies
      · show w.now < w.now + 2 ^ 61
        lia
    exact ⟨reply, w', (replies_iff_course hinner hschedule hagenda hnow hend).mpr
      ⟨begins, hcourse⟩, hend⟩
  · intro reply w' hreplies hend cancel
    have hheeds : (wire script.peer).Heeds caller cancel url request := by
      refine wire_heeds hcaller cancel ?_
      intro history instant
      obtain ⟨step, -, hpeer⟩ := peer_delivers hlane history instant request
      exact ⟨_, hpeer⟩
    obtain ⟨begins, hcourse⟩ :=
      (replies_iff_course hinner hschedule hagenda hnow hend).mp hreplies
    have hlater := hcourse.later hinner hschedule
    constructor
    · intro hle
      obtain ⟨begins', w'', hcanceled, hw'', hprefix⟩ :=
        hcourse.after hinner hschedule hheeds hcaller hagenda hle
      have hend'' : w''.now < w.now + 2 ^ 62 := by lia
      exact ⟨w'', (replies_iff_course hinner hschedule hagenda hnow hend'').mpr
        ⟨begins', hcanceled⟩, hw'', hprefix⟩
    · intro hlt
      exact (replies_iff_course hinner hschedule hagenda hnow hend).mpr
        ⟨begins, hcourse.before hinner hschedule hheeds hcaller hagenda hlt⟩

/-- A script that refuses the first exchange and answers the others. -/
def hesitantScript : Script :=
  { steps := [{ delay := 5, fail := some .connection }, { delay := 5 }] }

/-- Canceled during the rest the call ends at once, and canceled after its end it is the same
call. -/
theorem cancellation_ends_rest :
    ∃ w' w'', (retried .brisk (wire hesitantScript.peer)).Replies {} {} {} {} (.ok {}) w' ∧
      w'.now = 100000010 ∧
      (retried .brisk (wire hesitantScript.peer)).Replies (Caller.canceledAt {} 50000000) {} {} {}
        (.error .requestCanceled) w'' ∧ w''.now = 50000000 ∧ w''.sent <+: w'.sent ∧
      (retried .brisk (wire hesitantScript.peer)).Replies (Caller.canceledAt {} 100000011) {} {} {}
        (.ok {}) w' := by
  obtain ⟨w', hreplies, hw'⟩ : ∃ w',
      (retried .brisk (wire hesitantScript.peer)).Replies {} {} {} {} (.ok {}) w' ∧
        w'.now = 100000010 := ⟨_, ⟨3, rfl⟩, rfl⟩
  have hend : w'.now < 0 + 2 ^ 62 := by
    rw [hw']
    decide
  have hlane : hesitantScript.lane {} ≠ [] := by decide
  have hall := (cancellation_ends_call (w := {}) Settings.Schedule.brisk_moderate hlane {} rfl rfl
    ⟨by decide, by decide⟩).2 hreplies hend
  obtain ⟨w'', hcanceled, hw'', hprefix⟩ := (hall 50000000).1 (by rw [hw']; decide)
  exact ⟨w', w'', hreplies, hw', hcanceled, hw'', hprefix,
    (hall 100000011).2 (by rw [hw']; decide)⟩

end Retry

end Transport

end BearerAuth
