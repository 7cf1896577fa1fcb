import BearerAuth.Proofs.Introspection.Deadline
import BearerAuth.Proofs.Transport.Bound

/-!
# Retries are bounded under all settings

A call would be retried for ever if its delay were zero, and no check stands where it is retried.
The check is made when the settings are read: there are no settings with a delay or a limit that
is not positive (`schedule_pos`), and without pre-authorization the schedule is the brisk one.  So
whatever the settings and whatever the peer does, a call ends after the attempts that its schedule
has room for (`retries_bounded`).
-/

namespace BearerAuth

open Stretch Transport

namespace Introspection

theorem schedule_brisk {settings : Settings.Store} {config : Bytes} {policy : Settings.Policy}
    {schedule : Settings.Schedule} (h : policyFor settings config = .ok (policy, schedule))
    (hpolicy : policy.preAuthorized = false) : schedule = Settings.Schedule.brisk := by
  obtain ⟨-, -, -, hfound⟩ := policyFor_eq_ok.mp h
  rw [Settings.Policy.schedule, hpolicy] at hfound
  exact (Except.ok.inj hfound).symm

/-- **Retries are bounded under all settings that are accepted.**  Delay and limit of their
schedule are a nanosecond at least, and without pre-authorization they are 100 milliseconds and
one second.  While the values of the schedule and of the clock are below 2^61 nanoseconds, a
retried call ends after one attempt more than there is room for retries at most: over every
transport whose exchanges end, and over the wire to every peer, also to one that fails at once and
for ever, where each attempt is a request that is sent. -/
theorem retries_bounded {settings : Settings.Store} {config : Bytes} {policy : Settings.Policy}
    {schedule : Settings.Schedule} (h : policyFor settings config = .ok (policy, schedule)) :
    (1 ≤ schedule.baseDelay ∧ 1 ≤ schedule.giveUpAfter) ∧
    (policy.preAuthorized = false →
      schedule = { baseDelay := 100000000, giveUpAfter := 1000000000 }) ∧
    (∀ j : Nat, schedule.baseDelay * (2 ^ j - 1) ≤ schedule.giveUpAfter ↔
      j ≤ Retry.mostRetries schedule) ∧
    (schedule.baseDelay < 2 ^ 61 → schedule.giveUpAfter < 2 ^ 61 →
      ∀ (caller : Caller) (url : Url) (request : Request) (w : World),
        w.agenda = [] → Clock.Moderate w.now →
        (∀ inner : Transport, inner.KeepsTime →
          (∀ w : World, w.agenda = [] →
            ∃ reply w', inner.Replies caller url request w reply w') →
          Retry.StaysBefore schedule inner caller (2 ^ 61)
            ((retried schedule inner).start caller url request w) →
          ∃ begins reply w',
            (retried schedule inner).Replies caller url request w reply w' ∧
            Retry.Course inner schedule caller ⟨url, request, w.now⟩ 1 w begins reply w' ∧
            begins.length ≤ Retry.mostRetries schedule + 1) ∧
        ∀ peer : Peer,
          Retry.StaysBefore schedule (wire peer) caller (2 ^ 61)
            ((retried schedule (wire peer)).start caller url request w) →
          ∃ reply w',
            (retried schedule (wire peer)).Replies caller url request w reply w' ∧
            w'.sent.length ≤ w.sent.length + (Retry.mostRetries schedule + 1)) := by
  obtain ⟨hbase, hlimit⟩ := schedule_pos h
  refine ⟨⟨hbase, hlimit⟩, schedule_brisk h,
    Retry.le_mostRetries_iff hbase (Int.le_of_lt hlimit), ?_⟩
  intro hbaseLt hlimitLt caller url request w hagenda hnow
  have hschedule := schedule_moderate h hbaseLt hlimitLt
  constructor
  · intro inner hinner hends hclock
    exact Retry.ends_in_course hinner hschedule hagenda hnow hends hclock
  · intro peer hclock
    exact Retry.wire_ends_in_course peer hschedule hagenda hnow hclock

/-- A peer that cannot be reached. -/
def absentPeer : Peer := fun _ _ => .error ⟨.connection, utf8 "refused"⟩

/-- There is room for one retry under the default schedule, and an absent peer is sent no more
than two requests. -/
theorem absent_peer_asked_twice :
    ∃ policy schedule, policyFor (slowCall 0 none).settings [] = .ok (policy, schedule) ∧
      ∃ reply w', (retried schedule (wire absentPeer)).Replies {} {} {} {} reply w' ∧
        w'.sent.length ≤ 2 := by
  have hdefault : (policyFor (slowCall 0 none).settings []).map Prod.snd =
      .ok { baseDelay := 500000000, giveUpAfter := 1000000000 } := by
    decide +kernel
  obtain ⟨⟨policy, schedule⟩, hfound, rfl⟩ := map_eq_ok.mp hdefault
  refine ⟨policy, _, hfound, ?_⟩
  obtain ⟨-, -, -, hends⟩ := retries_bounded hfound
  refine (hends (by decide) (by decide) {} {} {} {} rfl ⟨by decide, by decide⟩).2 absentPeer ?_
  intro n
  match n with
  | 0 => decide
  | 1 => decide
  | n + 2 =>
      -- the call is done after one rest
      show (500000000 : Int) < 2 ^ 61
      decide

end Introspection

end BearerAuth
