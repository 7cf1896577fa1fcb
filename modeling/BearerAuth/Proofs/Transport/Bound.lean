import BearerAuth.Proofs.Transport.Cancellation

/-!
# Retries come to an end

Each delay of a retried call is twice the one before it, so before the attempt of number
`j + 1` the call has rested for `2 ^ j - 1` base delays, and only those rests are made that end
within the limit.  The largest `j` for which they do is `mostRetries`, and a call makes at most so
many attempts after the first (`Course.length_le`), however quickly the attempts fail.

The calls here are whole runs, whose ends are not presupposed: as long as the clock stays far from
the end of its register, a run comes to the end of its course (`ends_in_course`).
-/

namespace BearerAuth

open Stretch

namespace Transport

namespace Retry

/-- The number of retries that a schedule has room for when attempts take no time. -/
def mostRetries (schedule : Settings.Schedule) : Nat :=
  (schedule.giveUpAfter / schedule.baseDelay + 1).toNat.log2

theorem le_mostRetries_iff {schedule : Settings.Schedule} (hbase : 0 < schedule.baseDelay)
    (hlimit : 0 ≤ schedule.giveUpAfter) (j : Nat) :
    schedule.baseDelay * (2 ^ j - 1) ≤ schedule.giveUpAfter ↔ j ≤ mostRetries schedule := by
  have hquotient : 0 ≤ schedule.giveUpAfter / schedule.baseDelay :=
    Int.ediv_nonneg hlimit (Int.le_of_lt hbase)
  have hcast : ((2 ^ j : Nat) : Int) = 2 ^ j := by norm_cast
  rw [mostRetries, Int.mul_comm, ← Int.le_ediv_iff_mul_le hbase]
  generalize schedule.giveUpAfter / schedule.baseDelay = quotient at hquotient ⊢
  rw [Nat.le_log2 (by lia)]
  lia

section

variable {inner : Transport} {schedule : Settings.Schedule} {caller : Caller} {call : Call}
  {count : Nat} {w w₁ w' : World} {reply final : Reply} {begins : List Instant}

theorem rests_add_delayAfter (schedule : Settings.Schedule) (hcount : 1 ≤ count) :
    schedule.baseDelay * (2 ^ (count - 1) - 1) + delayAfter schedule count =
      schedule.baseDelay * (2 ^ count - 1) := by
  obtain ⟨k, rfl⟩ : ∃ k, count = k + 1 := ⟨count - 1, by omega⟩
  rw [delayAfter, Nat.add_sub_cancel, Int.pow_succ]
  lia

/-- A course makes no more attempts than its schedule has room for.  What carries the induction
is that the rests before an attempt have passed when it begins. -/
theorem Course.length_le (hinner : inner.KeepsTime) (hschedule : schedule.Moderate)
    (h : Course inner schedule caller call count w begins final w') (hcount : 1 ≤ count)
    (hrested : call.began + schedule.baseDelay * (2 ^ (count - 1) - 1) ≤ w.now)
    (hmost : count ≤ mostRetries schedule + 1) :
    begins.length + count ≤ mostRetries schedule + 2 := by
  induction h with
  | settled => exact Nat.add_comm _ _ ▸ Nat.add_le_add_right hmost 1
  | interrupted => exact Nat.add_comm _ _ ▸ Nat.add_le_add_right hmost 1
  | @again count w w₁ w₂ w₃ reply final wake begins hreplies hsequel _ _ ih =>
      obtain ⟨hwake, hlimit, -, -⟩ := sequel_rest hsequel
      have hlater := (hinner.later hreplies).1
      have hrests := rests_add_delayAfter schedule hcount
      have hfits : schedule.baseDelay * (2 ^ count - 1) ≤ schedule.giveUpAfter := by lia
      have hpow : (0 : Int) < 2 ^ count := Int.pow_pos (by decide)
      have hnonneg : 0 ≤ schedule.giveUpAfter :=
        Int.le_trans (Int.mul_nonneg (Int.le_of_lt hschedule.base_pos) (by lia)) hfits
      have hroom := (le_mostRetries_iff hschedule.base_pos hnonneg count).mp hfits
      have hnext := ih (Nat.le_add_left _ _) (by rw [Nat.add_sub_cancel]; lia)
        (Nat.succ_le_succ hroom)
      rw [List.length_cons]
      omega

theorem run_attempt (schedule : Settings.Schedule) (count : Nat) (delay : Span)
    (hreplies : inner.Replies caller call.url call.request w reply w₁) :
    ∃ pauses, ∀ n, run (resume schedule inner caller) (pauses + n)
        (attempt inner schedule caller call count delay w) =
      run (resume schedule inner caller) n (settle schedule caller call count delay reply w₁) :=
  let ⟨_, hfuel⟩ := hreplies
  run_andThen (fun _ _ => rfl) hfuel

/-- The clock of a run stays before an instant. -/
def StaysBefore (schedule : Settings.Schedule) (inner : Transport) (caller : Caller)
    (bound : Instant) (stretch : Stretch (Phase inner.Phase) Reply) : Prop :=
  ∀ n, (run (resume schedule inner caller) n stretch).2.now < bound

/-- In a run that stays before an instant, so does what follows the reply to an attempt. -/
theorem Ready.settled (hready : Ready schedule call count w) (hinner : inner.KeepsTime)
    (hreplies : inner.Replies caller call.url call.request w reply w₁) {bound : Instant}
    (hbound : bound ≤ call.began + 2 ^ 62) {delay : Span}
    (hrun : StaysBefore schedule inner caller bound
      (attempt inner schedule caller call count delay w)) :
    Steady schedule call count w₁.now ∧ w₁.agenda = [] ∧
      StaysBefore schedule inner caller bound
        (settle schedule caller call count delay reply w₁) := by
  obtain ⟨pauses, hpauses⟩ := run_attempt schedule count delay hreplies
  have hrest (n : Nat) : (run (resume schedule inner caller) n
      (settle schedule caller call count delay reply w₁)).2.now < bound := by
    rw [← hpauses]
    exact hrun _
  have hlt : w₁.now < bound :=
    (settle_noted schedule caller call count delay reply w₁).sameTime.now ▸ hrest 0
  obtain ⟨hsteady, hagenda⟩ := hready.steady hinner hreplies (Int.lt_of_lt_of_le hlt hbound)
  exact ⟨hsteady, hagenda, hrest⟩

/-- A run whose clock stays before an instant ends before it.  By induction on the course of the
run: the run is that of the first attempt, then that of a rest, and then one of the course left. -/
theorem Course.now_lt (hinner : inner.KeepsTime) (hschedule : schedule.Moderate)
    (h : Course inner schedule caller call count w begins final w')
    (hready : Ready schedule call count w) {bound : Instant} (hbound : bound ≤ call.began + 2 ^ 62)
    (hrun : StaysBefore schedule inner caller bound
      (attempt inner schedule caller call count (delayAfter schedule count) w)) :
    w'.now < bound := by
  induction h with
  | @settled count w w₁ w₂ reply final hreplies hsequel =>
      obtain ⟨hsteady, hagenda, hrest⟩ := hready.settled hinner hreplies hbound hrun
      have hlast := hrest 0
      rwa [settle_eq hsteady hschedule hagenda, hsequel] at hlast
  | @interrupted count w w₁ w₂ reply wake instant hreplies hsequel hcancel hle =>
      obtain ⟨hsteady, hagenda, hrest⟩ := hready.settled hinner hreplies hbound hrun
      obtain ⟨-, -, -, hcanceled⟩ := sequel_rest hsequel
      have hsame := (noted_of_sequel hsequel).sameTime
      have hlast := hrest 1
      rw [settle_eq hsteady hschedule hagenda, hsequel] at hlast
      rw [run_of_finish (finish_rest_interrupted (hsame.agenda.trans hagenda)
        (hsame.now ▸ hcanceled) hcancel hle)] at hlast
      exact hlast
  | @again count w w₁ w₂ w₃ reply final wake begins hreplies hsequel hcancel hcourse ih =>
      obtain ⟨hsteady, hagenda, hrest⟩ := hready.settled hinner hreplies hbound hrun
      obtain ⟨hready₂, hlater, hagenda₂⟩ := hready.again hschedule hsteady hagenda hsequel
      refine ih hready₂ fun n => ?_
      have hnext := hrest (n + 1)
      rw [settle_eq hsteady hschedule hagenda, hsequel] at hnext
      rw [run_rest_again hagenda₂ hlater hcancel,
        (hsteady.again hschedule hready.counted hsequel).1] at hnext
      exact hnext

/-- **A retried call ends**, when each of its attempts does and the clock stays moderate all the
time: it comes to the end of a course, and that has no more attempts than its schedule has room
for. -/
theorem ends_in_course (hinner : inner.KeepsTime) (hschedule : schedule.Moderate) {url : Url}
    {request : Request} (hagenda : w.agenda = []) (hnow : Clock.Moderate w.now)
    (hends : ∀ w : World, w.agenda = [] →
      ∃ reply w', inner.Replies caller url request w reply w')
    (hclock : StaysBefore schedule inner caller (2 ^ 61)
      ((retried schedule inner).start caller url request w)) :
    ∃ begins reply w', (retried schedule inner).Replies caller url request w reply w' ∧
      Course inner schedule caller ⟨url, request, w.now⟩ 1 w begins reply w' ∧
      begins.length ≤ mostRetries schedule + 1 := by
  obtain ⟨begins, reply, w', hcourse⟩ :=
    course_of_attempts_end hinner hschedule hagenda hends
  have hlow := hnow.1
  have hfirst : delayAfter schedule 1 = schedule.baseDelay := Int.mul_one _
  have hend : w'.now < 2 ^ 61 := by
    refine hcourse.now_lt hinner hschedule (Ready.first hschedule hnow hagenda url request)
      (show (2 : Int) ^ 61 ≤ w.now + 2 ^ 62 by lia) ?_
    rw [hfirst]
    exact hclock
  have hlength := hcourse.length_le hinner hschedule (Nat.le_refl 1) (by simp) (Nat.le_add_left _ _)
  exact ⟨begins, reply, w',
    (replies_iff_course hinner hschedule hagenda hnow (by lia)).mpr ⟨begins, hcourse⟩, hcourse,
    by omega⟩

/-- Over the wire each attempt is a request, so no more requests are sent than attempts made. -/
theorem wire_ends_in_course (peer : Peer) (hschedule : schedule.Moderate) {url : Url}
    {request : Request} (hagenda : w.agenda = []) (hnow : Clock.Moderate w.now)
    (hclock : StaysBefore schedule (wire peer) caller (2 ^ 61)
      ((retried schedule (wire peer)).start caller url request w)) :
    ∃ reply w', (retried schedule (wire peer)).Replies caller url request w reply w' ∧
      w'.sent.length ≤ w.sent.length + (mostRetries schedule + 1) := by
  obtain ⟨begins, reply, w', hreplies, hcourse, hlength⟩ :=
    ends_in_course (wire_keepsTime peer) hschedule hagenda hnow
      (fun w _ => wire_replies peer caller url request w) hclock
  refine ⟨reply, w', hreplies, ?_⟩
  rw [hcourse.sent, List.length_append, List.length_map]
  exact Nat.add_le_add_left hlength _

end

end Retry

end Transport

end BearerAuth
