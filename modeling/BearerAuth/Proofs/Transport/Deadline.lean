import BearerAuth.Proofs.Budget
import BearerAuth.Proofs.Transport.Attempts

/-!
# Retries within a budget

A transport stays within a budget when all stretches of its exchanges do (`StaysWithin`).
Retrying repeats exchanges, but the delay between them doubles and is within the limit of the
schedule, so there is a bound on the attempts of a call (`Retry.mostAttempts`), and a budget
for all of them (`Retry.budget`).  A rest is not begun unless it ends before the deadline.
-/

namespace BearerAuth

open Stretch

namespace Transport

/-- All stretches of all exchanges spend of a budget, while the clock is moderate. -/
structure StaysWithin (transport : Transport) (budget : Budget transport.Phase) : Prop where
  start : ∀ {w : World} (caller : Caller) (url : Url) (request : Request),
    Clock.Moderate w.now → (transport.start caller url request w).Spends budget caller.deadline
      budget.allFetches budget.allPauses 0 w
  resume : ∀ {w : World} {phase : transport.Phase} (caller : Caller),
    Clock.Moderate w.now → budget.mine phase w.now →
    (transport.resume caller phase w).Spends budget caller.deadline (budget.fetches phase)
      (budget.pauses w.publications phase) (budget.rank phase) w

namespace Retry

/-- A call that is on schedule: its delay has doubled after each attempt, and fits. -/
structure OnSchedule (schedule : Settings.Schedule) (call : Call) (count : Nat) (delay : Span)
    (now : Instant) : Prop where
  began : Clock.Moderate call.began
  later : call.began ≤ now
  positive : 1 ≤ count
  delay_eq : delay = delayAfter schedule count
  delay_lt : delay < 2 ^ 62

/-- A call never takes more attempts than this. -/
def mostAttempts : Nat := 62

/-- The budget of a retried call, given that of an attempt: after each attempt it may rest
once and make another one, as long as there are attempts left. -/
def budget {φ : Type} (schedule : Settings.Schedule) (inner : Budget φ) : Budget (Phase φ) where
  fetches
    | .attempting _ count _ phase =>
        inner.fetches phase + (mostAttempts - count) * inner.allFetches
    | .resting _ count _ => (mostAttempts - count) * inner.allFetches
  pauses publications
    | .attempting _ count _ phase =>
        inner.pauses publications phase + (mostAttempts - count) * (inner.allPauses + 1)
    | .resting _ count _ =>
        inner.allPauses + (mostAttempts - (count + 1)) * (inner.allPauses + 1)
  rank
    | .attempting _ _ _ phase => inner.rank phase
    | .resting _ _ _ => 0
  mine
    | .attempting call count delay phase, now =>
        OnSchedule schedule call count delay now ∧ inner.mine phase now
    | .resting call count delay, now =>
        OnSchedule schedule call count delay now ∧ delay < 2 ^ 61
  later := by
    intro phase now now' hmine hle
    cases phase with
    | attempting call count delay phase =>
        obtain ⟨hon, hphase⟩ := hmine
        exact ⟨{ hon with later := Int.le_trans hon.later hle }, inner.later hphase hle⟩
    | resting call count delay =>
        obtain ⟨hon, hdelay⟩ := hmine
        exact ⟨{ hon with later := Int.le_trans hon.later hle }, hdelay⟩
  allFetches := inner.allFetches + (mostAttempts - 1) * inner.allFetches
  allPauses := inner.allPauses + (mostAttempts - 1) * (inner.allPauses + 1)

theorem attempting_partOf {φ : Type} (schedule : Settings.Schedule) (inner : Budget φ)
    (call : Call) (count : Nat) (delay : Span) :
    inner.PartOf (budget schedule inner) (.attempting call count delay)
      ((mostAttempts - count) * inner.allFetches)
      ((mostAttempts - count) * (inner.allPauses + 1)) :=
  ⟨fun _ => rfl, fun _ _ => rfl, fun _ => rfl⟩

section

variable {inner : Transport} {innerBudget : Budget inner.Phase} {schedule : Settings.Schedule}
  {caller : Caller} {call : Call} {count : Nat} {delay : Span} {reply : Reply} {w : World}

theorem OnSchedule.steady (h : OnSchedule schedule call count delay w.now)
    (hnow : Clock.Moderate w.now) : Steady schedule call count w.now := by
  obtain ⟨⟨hlow, hhigh⟩, hlater, -, rfl, hdelay⟩ := h
  exact ⟨⟨hlow, hhigh⟩, hlater, by have := hnow.2; lia, hdelay⟩

theorem count_lt_mostAttempts (hschedule : schedule.Moderate)
    (hdelay : delayAfter schedule count < 2 ^ 61) : count < mostAttempts := by
  refine Nat.not_le.mp fun hmany => ?_
  have hlong : (2 : Int) ^ 61 ≤ 2 ^ (count - 1) := by
    exact_mod_cast Nat.pow_le_pow_right (by decide : 2 > 0) (Nat.le_sub_one_of_lt hmany)
  have hpow : (0 : Int) ≤ 2 ^ (count - 1) := Int.le_of_lt (Int.pow_pos (by decide))
  have hscaled := Int.mul_le_mul_of_nonneg_right
    (show (1 : Int) ≤ schedule.baseDelay from hschedule.base_pos) hpow
  rw [delayAfter] at hdelay
  lia

theorem attemptsLeft_mul (h : count < mostAttempts) (each : Nat) :
    (mostAttempts - count) * each = (mostAttempts - (count + 1)) * each + each := by
  rw [← Nat.succ_mul]
  congr 1
  omega

/-- What follows an attempt leaves a budget for the attempts after it. -/
theorem settle_spends (h : OnSchedule schedule call count delay w.now)
    (hschedule : schedule.Moderate) (hnow : Clock.Moderate w.now) :
    (settle schedule caller call count delay reply w).Spends (budget schedule innerBudget)
      caller.deadline ((mostAttempts - count) * innerBudget.allFetches)
      ((mostAttempts - count) * (innerBudget.allPauses + 1)) 0 w := by
  have hsteady := h.steady hnow
  obtain ⟨final, w', hsettle, hnoted⟩ | ⟨failure, -, hallows, hsettle⟩ :=
    @settle_cases inner.Phase schedule caller call count delay reply w
  · rw [hsettle]
    exact spends_done _ hnoted.orderly hnoted.publications
  · have hdelay : delay < 2 ^ 61 := by
      have hlimit := hallows.limit
      rw [h.delay_eq, hsteady.exceedsLimit hschedule, decide_eq_false_iff_not, gt_iff_lt,
        Int.not_lt] at hlimit
      have hlater := h.later
      have hlt := hschedule.limit_lt
      rw [h.delay_eq]
      lia
    have hcount := count_lt_mostAttempts hschedule (h.delay_eq ▸ hdelay)
    rw [hsettle]
    refine spends_paused (World.Noted.orderly (.inr ⟨_, _, rfl⟩)) rfl ⟨h, hdelay⟩ ?_
      (Nat.le_refl _) ?_
    · intro deadline hsome
      refine ⟨_, rfl, ?_⟩
      have hdeadline := hallows.deadline
      simp only [meetsDeadline, hsome, decide_eq_false_iff_not] at hdeadline
      exact Int.le_trans (Int.le_of_lt (Int.not_le.mp hdeadline)) (Int.le_max_right _ _)
    · show innerBudget.allPauses + _ < _
      rw [attemptsLeft_mul hcount]
      omega

theorem attempt_spends (hinner : inner.StaysWithin innerBudget) (hschedule : schedule.Moderate)
    (h : OnSchedule schedule call count delay w.now) (hnow : Clock.Moderate w.now) :
    (attempt inner schedule caller call count delay w).Spends (budget schedule innerBudget)
      caller.deadline (innerBudget.allFetches + (mostAttempts - count) * innerBudget.allFetches)
      (innerBudget.allPauses + (mostAttempts - count) * (innerBudget.allPauses + 1)) 0 w := by
  refine (hinner.start caller call.url call.request hnow).andThen
    (attempting_partOf schedule innerBudget call count delay) (fun _ hphase => ⟨h, hphase⟩) ?_
  intro reply w' horderly
  exact settle_spends (horderly.now.symm ▸ h) hschedule (horderly.now.symm ▸ hnow)

/-- **Retrying stays within a budget**, when each attempt does. -/
theorem retried_staysWithin (hinner : inner.StaysWithin innerBudget)
    (hschedule : schedule.Moderate) :
    (retried schedule inner).StaysWithin (budget schedule innerBudget) where
  start := by
    intro w caller url request hnow
    refine attempt_spends hinner hschedule ⟨hnow, Int.le_refl _, Nat.le_refl _, ?_, ?_⟩ hnow
    · simp [delayAfter]
    · have hlt := hschedule.base_lt
      lia
  resume := by
    intro w phase caller hnow hmine
    cases phase with
    | attempting call count delay phase =>
        obtain ⟨hon, hphase⟩ := hmine
        refine (hinner.resume caller hnow hphase).andThen
          (attempting_partOf schedule innerBudget call count delay)
          (fun _ hphase => ⟨hon, hphase⟩) ?_
        intro reply w' horderly
        exact settle_spends (horderly.now.symm ▸ hon) hschedule (horderly.now.symm ▸ hnow)
    | resting call count delay =>
        obtain ⟨hon, hdelay⟩ := hmine
        simp only [retried]
        split
        · exact spends_done _ (.refl _) rfl
        · have hcount := count_lt_mostAttempts hschedule (hon.delay_eq ▸ hdelay)
          have hpos := delayAfter_pos hschedule count
          have hdouble : Clock.wrap (delay * 2) = delayAfter schedule (count + 1) := by
            rw [hon.delay_eq] at hdelay ⊢
            rw [delayAfter_succ schedule hon.positive]
            exact Clock.wrap_of_fits (by lia) (by lia)
          have hon' : OnSchedule schedule call (count + 1) (Clock.wrap (delay * 2)) w.now := by
            refine ⟨hon.began, hon.later, Nat.le_add_left _ _, hdouble, ?_⟩
            rw [hdouble, delayAfter_succ schedule hon.positive, ← hon.delay_eq]
            lia
          refine (attempt_spends hinner hschedule hon' hnow).mono ?_ (Nat.le_refl _)
            (Nat.zero_le _)
          refine Nat.le_of_eq ?_
          show _ = (mostAttempts - count) * innerBudget.allFetches
          rw [attemptsLeft_mul hcount, Nat.add_comm]

end

end Retry

end Transport

end BearerAuth
