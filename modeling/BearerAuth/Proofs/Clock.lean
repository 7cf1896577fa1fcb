import BearerAuth.Settings.Policy
import Mathlib.Algebra.Group.Int.Defs

/-!
# Sums in a register

A register wraps at its ends only.  Instants and spans that are `Moderate` are so far
from them that the sums of the retry schedule come out exact.  A sum that runs past the upper end
comes out smaller than it is (`wrap_le`), and negative when it is not far past it (`wrap_of_gt`).
-/

namespace BearerAuth

namespace Clock

/-- Far enough from the ends of a register for the sum of a few such values to fit. -/
def Moderate (n : Int) : Prop := -(2 ^ 61) < n ∧ n < 2 ^ 61

theorem wrap_of_fits {n : Int} (hlow : -(2 ^ 63) ≤ n) (hhigh : n < 2 ^ 63) : wrap n = n := by
  rw [wrap]
  apply Int.bmod_eq_of_le_mul_two
  · simp
    omega
  · simp
    omega

theorem after_of_fits {start : Instant} {span : Span} (hlow : -(2 ^ 63) ≤ start + span)
    (hhigh : start + span < 2 ^ 63) : after start span = start + span :=
  wrap_of_fits hlow hhigh

theorem wrap_add_wrap (a b : Int) : wrap (a + wrap b) = wrap (a + b) :=
  Int.add_bmod_bmod ..

theorem after_seconds (start : Instant) (n : Int) :
    after start (seconds n) = wrap (start + n * 1000000000) :=
  wrap_add_wrap _ _

theorem wrap_of_le {n : Int} (hlow : bottom ≤ n) (hhigh : n ≤ top) : wrap n = n :=
  wrap_of_fits hlow (Int.lt_of_le_of_lt hhigh (by decide))

theorem fits_iff {n : Int} : fits n = true ↔ bottom ≤ n ∧ n ≤ top := by
  simp [fits]

theorem wrap_eq_of_fits {n : Int} (h : fits n = true) : wrap n = n := by
  obtain ⟨hlow, hhigh⟩ := fits_iff.mp h
  exact wrap_of_le hlow hhigh

theorem bottom_le_add {start : Instant} {n : Int} (hlow : bottom ≤ start) (hn : 0 ≤ n) :
    bottom ≤ start + n * 1000000000 :=
  Int.le_trans hlow (Int.le_add_of_nonneg_right (Int.mul_nonneg hn (by decide)))

theorem wrap_le {n : Int} (h : bottom ≤ n) : wrap n ≤ n := by
  rcases Int.lt_or_le n (2 ^ 63) with hlt | hge
  · exact Int.le_of_eq (wrap_of_fits h hlt)
  · have hbelow : wrap n < (2 ^ 64 + 1) / 2 := Int.bmod_lt (by decide)
    omega

theorem fits_of_nonneg {n : Int} (hlow : 0 ≤ n) (hhigh : n < 2 ^ 63) : fits n = true :=
  fits_iff.mpr ⟨Int.le_trans (by decide) hlow, Int.le_sub_one_of_lt hhigh⟩

theorem wrap_of_gt {n : Int} (hlow : top < n) (hhigh : n < 2 ^ 64) : wrap n = n - 2 ^ 64 := by
  rw [wrap, ← Int.sub_bmod_right]
  exact wrap_of_fits (by simp only [top] at hlow; lia) (by lia)

end Clock

namespace Settings

/-- The spans of a schedule are positive, and registers hold them. -/
structure Schedule.Registered (schedule : Schedule) : Prop where
  base_pos : 0 < schedule.baseDelay
  base_le : schedule.baseDelay ≤ Clock.top
  limit_pos : 0 < schedule.giveUpAfter
  limit_le : schedule.giveUpAfter ≤ Clock.top

/-- The spans of a schedule are moderate, and its delays grow. -/
structure Schedule.Moderate (schedule : Schedule) : Prop where
  base_pos : 0 < schedule.baseDelay
  base_lt : schedule.baseDelay < 2 ^ 61
  limit_lt : schedule.giveUpAfter < 2 ^ 61

theorem Schedule.brisk_moderate : Schedule.brisk.Moderate :=
  ⟨by decide, by decide, by decide⟩

end Settings

end BearerAuth
