import BearerAuth.Proofs.Transport.Attempts

/-!
# The sums of a retried call

After a failure three sums decide about a retry: elapsed time and delay, clock and delay, and twice
the delay.  Registers take them before anything is compared, so a sum that runs past the end of
its register is compared as a negative value, and no longer speaks against a retry
(`allows_of_overflow`).

A `History` is a course of failures at any instants, with what the registers hold then.  When the
sums after its first failure fit, the others do as well (`History.exact`): a retry is made only
once the clock has come to the end of the rest, so a clock that is far from the end of its register
bounds the delay that has passed, and the next delay is only twice as long.  A call has no failures
but those of histories (`Reached.accounted`), over every transport that keeps time, and one that
acquires a token first does so as well (`authorized_keepsTime`).
-/

namespace BearerAuth

open Stretch

namespace Transport

namespace Retry

/-! ## Failures -/

/-- The failures that a call may have had: attempt `count` fails at an instant, with `delay` in its
register.  The first attempt fails at the instant `first`.  Another one begins once the timer of the
rest has come, and may fail at any instant from then on. -/
inductive History (schedule : Settings.Schedule) (caller : Caller) (call : Call) (first : Instant) :
    Nat → Span → Instant → Prop
  | first : History schedule caller call first 1 schedule.baseDelay first
  | again {count : Nat} {delay : Span} {failed next : Instant} :
      History schedule caller call first count delay failed →
      Allows schedule caller call delay failed →
      failed ≤ next → Clock.after failed delay ≤ next →
      History schedule caller call first (count + 1) (Clock.wrap (delay * 2)) next

/-- Registers hold the sums that are taken after a failure.  The clock and the delay are added only
when the limit does not speak against a retry. -/
structure SumsFit (schedule : Settings.Schedule) (call : Call) (delay : Span) (failed : Instant) :
    Prop where
  elapsed : Clock.fits (failed - call.began) = true
  limit : Clock.fits (failed - call.began + delay) = true
  wake : failed - call.began + delay ≤ schedule.giveUpAfter → Clock.fits (failed + delay) = true

/-- After a failure the registers hold what exact arithmetic gives: the delay is the first one
doubled as often as there were retries, the sums fit, and no retry is allowed that would begin
beyond the limit or not before the deadline. -/
structure Exact (schedule : Settings.Schedule) (caller : Caller) (call : Call) (count : Nat)
    (delay : Span) (failed : Instant) : Prop where
  delay_eq : delay = delayAfter schedule count
  delay_fits : Clock.fits delay = true
  sums : SumsFit schedule call delay failed
  limit : Allows schedule caller call delay failed →
    failed - call.began + delay ≤ schedule.giveUpAfter
  wake : Allows schedule caller call delay failed → Clock.after failed delay = failed + delay
  deadline : Allows schedule caller call delay failed →
    ∀ deadline, caller.deadline = some deadline → failed + delay < deadline

section

variable {schedule : Settings.Schedule} {caller : Caller} {call : Call} {count : Nat}
  {delay : Span} {first failed : Instant}

theorem SumsFit.limit_of_allows (h : SumsFit schedule call delay failed)
    (hallows : Allows schedule caller call delay failed) :
    failed - call.began + delay ≤ schedule.giveUpAfter := by
  have hlimit := hallows.limit
  rw [exceedsLimit, Clock.wrap_eq_of_fits h.elapsed, Clock.wrap_eq_of_fits h.limit] at hlimit
  exact Int.not_lt.mp (of_decide_eq_false hlimit)

theorem SumsFit.after_of_allows (h : SumsFit schedule call delay failed)
    (hallows : Allows schedule caller call delay failed) :
    Clock.after failed delay = failed + delay :=
  Clock.wrap_eq_of_fits (h.wake (h.limit_of_allows hallows))

theorem SumsFit.deadline_of_allows (h : SumsFit schedule call delay failed)
    (hallows : Allows schedule caller call delay failed) {deadline : Instant}
    (hdeadline : caller.deadline = some deadline) : failed + delay < deadline := by
  have hmeets := hallows.deadline
  simp only [meetsDeadline, hdeadline, h.after_of_allows hallows] at hmeets
  exact Int.not_le.mp (of_decide_eq_false hmeets)

theorem SumsFit.exact (h : SumsFit schedule call delay failed)
    (hdelay : delay = delayAfter schedule count) (hfits : Clock.fits delay = true) :
    Exact schedule caller call count delay failed where
  delay_eq := hdelay
  delay_fits := hfits
  sums := h
  limit := h.limit_of_allows
  wake := h.after_of_allows
  deadline hallows _ := h.deadline_of_allows hallows

/-- While the clock is moderate, a sum fits when its delay is not too close to the end of a
register. -/
theorem sumsFit_of_delay_le (hbegan : 0 ≤ call.began) (hlater : call.began ≤ failed)
    (hfailed : failed < 2 ^ 61) (hdelay : 0 ≤ delay) (hle : delay ≤ 2 ^ 63 - 2 ^ 61) :
    SumsFit schedule call delay failed := by
  refine ⟨Clock.fits_of_nonneg ?_ ?_, Clock.fits_of_nonneg ?_ ?_,
    fun _ => Clock.fits_of_nonneg ?_ ?_⟩ <;> lia

theorem History.first_le (h : History schedule caller call first count delay failed) :
    first ≤ failed := by
  induction h with
  | first => exact Int.le_refl _
  | again _ _ hlater _ ih => exact Int.le_trans ih hlater

theorem History.counted (h : History schedule caller call first count delay failed) :
    1 ≤ count := by
  cases h with
  | first => exact Nat.le_refl 1
  | again => exact Nat.le_add_left 1 _

/-- **All sums fit when the first ones do.**  By induction on the history: after a rest the delay
has passed on a clock that is below `2 ^ 61`, so twice the delay is below `2 ^ 62`. -/
theorem History.exact (hschedule : schedule.Registered) (hbegan : 0 ≤ call.began)
    (hfirst : call.began ≤ first) (hfits : SumsFit schedule call schedule.baseDelay first)
    (h : History schedule caller call first count delay failed) (hfailed : failed < 2 ^ 61) :
    Exact schedule caller call count delay failed := by
  induction h with
  | first =>
      have hlow : Clock.bottom ≤ schedule.baseDelay :=
        Int.le_trans (by decide) (Int.le_of_lt hschedule.base_pos)
      exact hfits.exact (Int.mul_one _).symm (Clock.fits_iff.mpr ⟨hlow, hschedule.base_le⟩)
  | @again count delay failed next hhistory hallows hlater hafter ih =>
      have hexact := ih (Int.lt_of_le_of_lt hlater hfailed)
      rw [hexact.wake hallows] at hafter
      have hbegun := Int.le_trans hfirst hhistory.first_le
      have hpos : 0 < delay := by
        rw [hexact.delay_eq]
        exact Int.mul_pos hschedule.base_pos (Int.pow_pos (by decide))
      have hpassed : delay < 2 ^ 61 := by lia
      have hdouble : Clock.wrap (delay * 2) = delay * 2 :=
        Clock.wrap_of_fits (by lia) (by lia)
      have hsums : SumsFit schedule call (delay * 2) next :=
        sumsFit_of_delay_le hbegan (Int.le_trans hbegun hlater) hfailed (by lia) (by lia)
      rw [hdouble]
      refine hsums.exact ?_ (Clock.fits_of_nonneg (by lia) (by lia))
      rw [delayAfter_succ schedule hhistory.counted, hexact.delay_eq]

/-- **A sum that does not fit speaks against no retry**, unless there is a deadline before the
clock began to count: the limit is taken not to be reached, and the timer of the rest is set to an
instant long before. -/
theorem allows_of_overflow (hschedule : schedule.Registered) (hbegan : 0 ≤ call.began)
    (hfirst : call.began ≤ first) (hmoderate : first < 2 ^ 61)
    (hdeadline : ∀ deadline, caller.deadline = some deadline → 0 ≤ deadline)
    (h : ¬ SumsFit schedule call schedule.baseDelay first) :
    Allows schedule caller call schedule.baseDelay first ∧
      Clock.after first schedule.baseDelay < 0 := by
  obtain ⟨hbase, htop, hlimit, -⟩ := hschedule
  have htop' : Clock.top = 2 ^ 63 - 1 := rfl
  have helapsed : Clock.fits (first - call.began) = true :=
    Clock.fits_of_nonneg (by lia) (by lia)
  -- the clock's sum is the greater one, so it is past the end when one of them is
  have hover : Clock.top < first + schedule.baseDelay := by
    refine Int.not_le.mp fun hle => ?_
    refine h ⟨helapsed, Clock.fits_of_nonneg ?_ ?_, fun _ => Clock.fits_of_nonneg ?_ ?_⟩ <;> lia
  have hafter : Clock.after first schedule.baseDelay < 0 := by
    rw [Clock.after, Clock.wrap_of_gt hover (by lia)]
    lia
  refine ⟨⟨?_, ?_⟩, hafter⟩
  · rw [exceedsLimit, Clock.wrap_eq_of_fits helapsed]
    refine decide_eq_false ?_
    by_cases hsum : first - call.began + schedule.baseDelay ≤ Clock.top
    · rw [Clock.wrap_of_le (Int.le_trans (by decide : Clock.bottom ≤ 0) (by lia)) hsum]
      intro hbeyond
      refine h ⟨helapsed, Clock.fits_of_nonneg (by lia) (by lia), fun hle => ?_⟩
      exact absurd hbeyond (Int.not_lt.mpr hle)
    · rw [Clock.wrap_of_gt (Int.not_le.mp hsum) (by lia)]
      lia
  · rw [meetsDeadline]
    cases hsome : caller.deadline with
    | none => rfl
    | some deadline =>
        have hnonneg := hdeadline deadline hsome
        exact decide_eq_false (by lia)

end

/-! ## Calls -/

/-- A failure that belongs to a history of the call. -/
def Failed (schedule : Settings.Schedule) (caller : Caller) (call : Call) (count : Nat)
    (delay : Span) (failed : Instant) : Prop :=
  0 ≤ call.began ∧ ∃ first, call.began ≤ first ∧
    History schedule caller call first count delay failed

/-- From an instant on, an attempt can only fail as in a history. -/
def Due (schedule : Settings.Schedule) (caller : Caller) (call : Call) (count : Nat) (delay : Span)
    (now : Instant) : Prop :=
  ∀ failed, now ≤ failed → Failed schedule caller call count delay failed

/-- A stretch of a call is one of an attempt, with what follows the attempt when that is its last,
and the attempt can only fail as in a history.  Otherwise the call was canceled while it rested. -/
def Accounted {φ : Type} (schedule : Settings.Schedule) (caller : Caller)
    (stretch : Stretch (Phase φ) Reply) : Prop :=
  (∃ call count delay, ∃ part : Stretch φ Reply,
    Due schedule caller call count delay part.2.now ∧
    stretch = part.andThen (.attempting call count delay)
      (settle schedule caller call count delay)) ∨
  ∃ w, stretch = (.done (.error .requestCanceled), w)

/-- What a call may come to, whatever others do meanwhile.  A pause ends no earlier than it began,
and a rest not before its timer unless the caller is canceled by then. -/
inductive Reached (schedule : Settings.Schedule) (inner : Transport) (caller : Caller) (url : Url)
    (request : Request) : Stretch (Phase inner.Phase) Reply → Prop
  | start (w : World) : 0 ≤ w.now →
      Reached schedule inner caller url request
        ((retried schedule inner).start caller url request w)
  | resume {phase : Phase inner.Phase} {wait : Wait} {w w' : World} :
      Reached schedule inner caller url request (.paused phase wait, w) → w.now ≤ w'.now →
      (∀ call count delay timer, phase = .resting call count delay → wait.timer = some timer →
        w'.canceled caller = false → timer ≤ w'.now) →
      Reached schedule inner caller url request (resume schedule inner caller phase w')

section

variable {schedule : Settings.Schedule} {inner : Transport} {caller : Caller} {call : Call}
  {count : Nat} {delay : Span} {w w' : World} {reply : Reply}

theorem Due.later {now now' : Instant} (h : Due schedule caller call count delay now)
    (hle : now ≤ now') : Due schedule caller call count delay now' :=
  fun failed hfailed => h failed (Int.le_trans hle hfailed)

theorem settle_eq_paused {φ : Type} {phase : Phase φ} {wait : Wait}
    (h : settle schedule caller call count delay reply w = (.paused phase wait, w')) :
    phase = .resting call count delay ∧ Allows schedule caller call delay w.now ∧
      wait = { timer := some (Clock.after w.now delay), cancel := caller.cancelAt } ∧
      w'.now = w.now := by
  obtain ⟨final, w₁, hsettle, -⟩ | ⟨failure, -, hallows, hsettle⟩ :=
    @settle_cases φ schedule caller call count delay reply w
  · cases h.symm.trans hsettle
  · cases h.symm.trans hsettle
    exact ⟨rfl, hallows, rfl, rfl⟩

theorem Due.accounted {φ : Type} {part : Stretch φ Reply}
    (h : Due schedule caller call count delay w.now) (htime : World.SameTime w part.2) :
    Accounted schedule caller (part.andThen (.attempting call count delay)
      (settle schedule caller call count delay)) :=
  .inl ⟨call, count, delay, part, h.later (Int.le_of_eq htime.now.symm), rfl⟩

/-- A call that pauses is in the middle of an attempt, or rests after one that failed. -/
theorem Accounted.paused_cases {phase : Phase inner.Phase} {wait : Wait}
    (h : Accounted schedule caller
      ((.paused phase wait, w) : Stretch (Phase inner.Phase) Reply)) :
    (∃ call count delay phase', phase = .attempting call count delay phase' ∧
      Due schedule caller call count delay w.now) ∨
    ∃ call count delay, phase = .resting call count delay ∧
      Failed schedule caller call count delay w.now ∧
      Allows schedule caller call delay w.now ∧
      wait = { timer := some (Clock.after w.now delay), cancel := caller.cancelAt } := by
  obtain ⟨call, count, delay, part, hdue, heq⟩ | ⟨w', heq⟩ := h
  · match part with
    | (.done reply, w₁) =>
        obtain ⟨rfl, hallows, hwait, hnow⟩ := settle_eq_paused heq.symm
        rw [hnow]
        exact .inr ⟨call, count, delay, rfl, hdue _ (Int.le_refl _), hallows, hwait⟩
    | (.paused phase' wait', w₁) =>
        cases heq
        exact .inl ⟨call, count, delay, phase', rfl, hdue⟩
  · cases heq

/-- By induction on what the call may come to: an attempt stays due through its pauses, and after a
rest the next one is. -/
theorem Reached.accounted {url : Url} {request : Request} (hinner : inner.KeepsTime)
    {stretch : Stretch (Phase inner.Phase) Reply}
    (h : Reached schedule inner caller url request stretch) :
    Accounted schedule caller stretch := by
  induction h with
  | start w hnow =>
      have hdue : Due schedule caller ⟨url, request, w.now⟩ 1 schedule.baseDelay w.now :=
        fun failed hfailed => ⟨hnow, failed, hfailed, .first⟩
      exact hdue.accounted (hinner.start caller url request w)
  | @resume phase wait w w' _ hlater hrest ih =>
      obtain ⟨call, count, delay, phase', rfl, hdue⟩ |
        ⟨call, count, delay, rfl, ⟨hbegan, first, hfirst, hhistory⟩, hallows, rfl⟩ :=
          ih.paused_cases
      · exact (hdue.later hlater).accounted (hinner.resume caller phase' w')
      · rw [resume_resting]
        split
        · exact .inr ⟨w', rfl⟩
        · next hcanceled =>
            have htimer := hrest call count delay _ rfl rfl (eq_false_of_ne_true hcanceled)
            have hdue : Due schedule caller call (count + 1) (Clock.wrap (delay * 2)) w'.now :=
              fun failed hfailed => ⟨hbegan, first, hfirst, hhistory.again hallows
                (Int.le_trans hlater hfailed) (Int.le_trans htimer hfailed)⟩
            exact hdue.accounted (hinner.start caller call.url call.request w')

/-- For a lone caller a pause that is not ended by the cancellation lasts until its timer. -/
theorem timer_le_of_ends {wait : Wait} {timer instant : Instant} (hagenda : w.agenda = [])
    (hcancel : wait.cancel = caller.cancelAt) (htimer : wait.timer = some timer)
    (hends : wait.ends = some instant)
    (hcanceled : (w.advanceTo instant).canceled caller = false) :
    timer ≤ (w.advanceTo instant).now := by
  rw [@World.canceled_eq (w.advanceTo instant) hagenda, Caller.canceled, ← hcancel] at hcanceled
  have hlater : instant ≤ (w.advanceTo instant).now := Int.le_max_right _ _
  cases hsome : wait.cancel with
  | none =>
      simp only [Wait.ends, htimer, hsome, Option.some.injEq] at hends
      exact hends ▸ hlater
  | some cancel =>
      simp only [hsome, decide_eq_false_iff_not] at hcanceled
      simp only [Wait.ends, htimer, hsome, Option.some.injEq] at hends
      lia

theorem reached_run {url : Url} {request : Request} (hinner : inner.KeepsTime)
    {stretch : Stretch (Phase inner.Phase) Reply}
    (h : Reached schedule inner caller url request stretch) (hagenda : stretch.2.agenda = [])
    (n : Nat) :
    Reached schedule inner caller url request (run (resume schedule inner caller) n stretch) := by
  induction n generalizing stretch with
  | zero => exact h
  | succ n ih =>
      match stretch with
      | (.done reply, w) =>
          rw [run_done]
          exact h
      | (.paused phase wait, w) =>
          cases hends : wait.ends with
          | none =>
              simp only [run, hends]
              exact h
          | some instant =>
              simp only [run, hends]
              have hsame :=
                (retried_keepsTime hinner schedule).resume caller phase (w.advanceTo instant)
              refine ih (h.resume (Int.le_max_left _ _) ?_) (hsame.agenda.trans hagenda)
              intro call count delay timer hphase htimer hcanceled
              obtain ⟨_, _, _, _, hattempting, -⟩ | ⟨_, _, _, -, -, -, rfl⟩ :=
                (h.accounted hinner).paused_cases
              · cases hphase.symm.trans hattempting
              · exact timer_le_of_ends hagenda rfl htimer hends hcanceled

end

end Retry

end Transport

end BearerAuth
