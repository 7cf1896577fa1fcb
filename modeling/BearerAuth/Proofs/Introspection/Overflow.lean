import BearerAuth.Proofs.Introspection.Retries
import BearerAuth.Proofs.Timespan.Reading
import BearerAuth.Proofs.Transport.Registers

/-!
# Durations close to the end of a register

Settings may have any duration that a register holds.  The sums of a retried call are taken in
registers as well, so a delay that is accepted may be too long for them (`retry_sums_exact_iff`):
then the first failure is followed by a retry at once, beyond every limit.
-/

namespace BearerAuth

open Stretch Transport

namespace Introspection

theorem resolveSpan_le {path : String} {text default : Bytes} {span : Span}
    (h : Settings.resolveSpan path text default = .ok span) : span ≤ Clock.top := by
  rw [Settings.resolveSpan] at h
  split at h
  · cases h
  · next hparse =>
      split at h
      · cases h
      · obtain rfl := Except.ok.inj h
        exact (Timespan.parse_bounded hparse).2

/-- The durations of the schedule that settings make are positive, and registers hold them. -/
theorem schedule_registered {settings : Settings.Store} {config : Bytes} {policy : Settings.Policy}
    {schedule : Settings.Schedule} (h : policyFor settings config = .ok (policy, schedule)) :
    schedule.Registered := by
  obtain ⟨hbase, hlimit⟩ := schedule_pos h
  obtain ⟨-, -, -, hfound⟩ := policyFor_eq_ok.mp h
  rw [Settings.Policy.schedule] at hfound
  split at hfound
  · obtain rfl := Except.ok.inj hfound
    exact ⟨hbase, by decide, hlimit, by decide⟩
  · simp only [bind_eq_ok] at hfound
    obtain ⟨baseDelay, hdelay, giveUpAfter, hlimit', hfound⟩ := hfound
    obtain rfl := Except.ok.inj hfound
    exact ⟨hbase, resolveSpan_le hdelay, hlimit, resolveSpan_le hlimit'⟩

/-- **The sums of a retried call fit when the first ones do**, under all settings that are accepted.
Delay and limit are then no more than a register holds.  On a clock that counts from zero and is
below 2^61 nanoseconds, all registers of a call are exact as long as the sums after its first
failure fit, whatever failures come when: every sum fits, and no retry is made when elapsed time and
delay are beyond the limit.  They do fit when the first delay is 2^61 nanoseconds below the end of
a register.  When they do not, limit and deadline are missed, and the rest before the retry is over
when it begins.  All this is about every failure that a call can have, alone or among others and
over every transport. -/
theorem retry_sums_exact_iff {settings : Settings.Store} {config : Bytes}
    {policy : Settings.Policy} {schedule : Settings.Schedule}
    (h : policyFor settings config = .ok (policy, schedule)) :
    schedule.Registered ∧
    (∀ (caller : Caller) (call : Retry.Call) (first : Instant),
      0 ≤ call.began → call.began ≤ first → first < 2 ^ 61 →
      ((∀ {count delay failed}, Retry.History schedule caller call first count delay failed →
          failed < 2 ^ 61 → Retry.Exact schedule caller call count delay failed) ↔
        Retry.SumsFit schedule call schedule.baseDelay first) ∧
      (schedule.baseDelay ≤ 2 ^ 63 - 2 ^ 61 →
        Retry.SumsFit schedule call schedule.baseDelay first) ∧
      (¬ Retry.SumsFit schedule call schedule.baseDelay first →
        (∀ deadline, caller.deadline = some deadline → 0 ≤ deadline) →
        Retry.Allows schedule caller call schedule.baseDelay first ∧
          Clock.after first schedule.baseDelay < 0)) ∧
    ∀ inner : Transport, inner.KeepsTime → ∀ (caller : Caller) (url : Url) (request : Request)
      (stretch : Stretch (Retry.Phase inner.Phase) Reply),
      Retry.Reached schedule inner caller url request stretch →
      Retry.Accounted schedule caller stretch := by
  have hschedule := schedule_registered h
  refine ⟨hschedule, ?_, fun inner hinner _ _ _ _ hreached => hreached.accounted hinner⟩
  intro caller call first hbegan hfirst hmoderate
  refine ⟨⟨fun hexact => (hexact .first hmoderate).sums, ?_⟩, ?_, ?_⟩
  · intro hfits count delay failed hhistory hfailed
    exact hhistory.exact hschedule hbegan hfirst hfits hfailed
  · exact Retry.sumsFit_of_delay_le hbegan hfirst hmoderate (Int.le_of_lt hschedule.base_pos)
  · intro hoverflow hdeadline
    exact Retry.allows_of_overflow hschedule hbegan hfirst hmoderate hdeadline hoverflow

/-- Under the default schedule the sums are exact when a call has failed at once and has been
retried, and a lone call that finds nobody to give it a token is accounted for all the way. -/
theorem default_schedule_exact :
    ∃ policy schedule, policyFor (slowCall 0 none).settings [] = .ok (policy, schedule) ∧
      Retry.Exact schedule {} ⟨{}, {}, 0⟩ 2 1000000000 500000000 ∧
      ∀ n, Retry.Accounted schedule {}
        (run (Retry.resume schedule (authorized (wire absentPeer) 0) {}) n
          ((retried schedule (authorized (wire absentPeer) 0)).start {} {} {} {})) := by
  have hdefault : (policyFor (slowCall 0 none).settings []).map Prod.snd =
      .ok { baseDelay := 500000000, giveUpAfter := 1000000000 } := by
    decide +kernel
  obtain ⟨⟨policy, schedule⟩, hfound, rfl⟩ := map_eq_ok.mp hdefault
  have hinner : (authorized (wire absentPeer) 0).KeepsTime :=
    authorized_keepsTime (wire_keepsTime absentPeer) 0
  refine ⟨policy, _, hfound, ?_, fun n => ?_⟩
  · obtain ⟨-, hsums, -⟩ := retry_sums_exact_iff hfound
    obtain ⟨hexact, hfits, -⟩ := hsums {} ⟨{}, {}, 0⟩ 0 (by decide) (by decide) (by decide)
    exact hexact.mpr (hfits (by decide))
      (.again .first ⟨by decide, by decide⟩ (by decide) (by decide)) (by decide)
  · obtain ⟨-, -, hcalls⟩ := retry_sums_exact_iff hfound
    refine hcalls _ hinner {} {} {} _
      (Retry.reached_run hinner (.start {} (Int.le_refl 0)) ?_ n)
    exact ((Retry.retried_keepsTime hinner _).start {} {} {} {}).agenda

/-- The text of a rule with the longest delay that is accepted. -/
def longestDelay : Bytes := utf8 "\x7b\"retry\":\x7b\"max_delay\":\"9223372036854775807ns\"\x7d\x7d"

/-- The longest delay is not rested for at all.  A call with it fails after five nanoseconds and is
retried at once, although five nanoseconds and the delay are beyond its limit of one second. -/
theorem longest_delay_retried_at_once :
    ∃ policy schedule w',
      policyFor (slowCall 0 none).settings longestDelay = .ok (policy, schedule) ∧
      (retried schedule (wire Retry.hesitantPeer)).Replies {} {} {} {} (.ok {}) w' ∧
      w'.sent.map Exchange.instant = [0, 5] ∧
      schedule.giveUpAfter < 5 - 0 + schedule.baseDelay := by
  have hlongest : (policyFor (slowCall 0 none).settings longestDelay).map Prod.snd =
      .ok { baseDelay := 9223372036854775807, giveUpAfter := 1000000000 } := by
    decide +kernel
  obtain ⟨⟨policy, schedule⟩, hfound, rfl⟩ := map_eq_ok.mp hlongest
  exact ⟨policy, _, _, hfound, ⟨3, rfl⟩, by decide, by decide⟩

end Introspection

end BearerAuth
