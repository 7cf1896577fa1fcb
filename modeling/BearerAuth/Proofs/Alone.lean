import BearerAuth.Proofs.Stretch

/-!
# The work of a lone caller

With nobody else about, a pause lasts until its timer or its cancellation, and only the
clock changes in it.  `Stretch.Ends` says of work that it comes to an end in this way,
however many pauses that takes; the end is unique (`Ends.unique`), and `Stretch.run` is the
work on the way to it.  Larger work ends when the work in it ends and what follows does
(`finish_andThen`, `Ends.andThen`).
-/

namespace BearerAuth

namespace Stretch

variable {φ ψ ρ τ : Type} {resume : φ → World → Stretch φ ρ} {resume' : ψ → World → Stretch ψ τ}
  {stretch : Stretch φ ρ} {result result' : ρ} {w w' : World}

/-- Run alone, the work ends with a result in a world. -/
def Ends (resume : φ → World → Stretch φ ρ) (stretch : Stretch φ ρ) (result : ρ)
    (world : World) : Prop :=
  ∃ fuel, finish resume fuel stretch = some (result, world)

@[simp] theorem finish_done (fuel : Nat) :
    finish resume fuel (.done result, w) = some (result, w) := by
  cases fuel <;> rfl

theorem finish_paused_eq_some {fuel : Nat} {phase : φ} {wait : Transport.Wait}
    (h : finish resume fuel (.paused phase wait, w) = some (result, w')) :
    ∃ rest instant, fuel = rest + 1 ∧ wait.ends = some instant ∧
      finish resume rest (resume phase (w.advanceTo instant)) = some (result, w') := by
  cases fuel with
  | zero => cases h
  | succ rest =>
      rw [finish] at h
      cases hends : wait.ends with
      | none =>
          rw [hends] at h
          cases h
      | some instant =>
          rw [hends] at h
          exact ⟨rest, instant, rfl, rfl, h⟩

theorem finish_mono {fuel more : Nat} (hle : fuel ≤ more)
    (h : finish resume fuel stretch = some (result, w)) :
    finish resume more stretch = some (result, w) := by
  induction fuel generalizing more stretch with
  | zero =>
      match stretch with
      | (.done _, _) => rwa [finish_done] at h ⊢
      | (.paused _ _, _) => cases h
  | succ fuel ih =>
      match stretch with
      | (.done _, _) => rwa [finish_done] at h ⊢
      | (.paused phase wait, before) =>
          obtain ⟨rest, instant, hfuel, hends, hrest⟩ := finish_paused_eq_some h
          obtain rfl := Nat.succ.inj hfuel
          obtain ⟨more, rfl⟩ : ∃ k, more = k + 1 := ⟨more - 1, by omega⟩
          rw [finish, hends]
          exact ih (Nat.le_of_succ_le_succ hle) hrest

theorem Ends.unique (h : Ends resume stretch result w) (h' : Ends resume stretch result' w') :
    result' = result ∧ w' = w := by
  obtain ⟨fuel, hfuel⟩ := h
  obtain ⟨fuel', hfuel'⟩ := h'
  have hleft := finish_mono (Nat.le_max_left fuel fuel') hfuel
  have hright := finish_mono (Nat.le_max_right fuel fuel') hfuel'
  exact Prod.mk.inj (Option.some.inj (hright.symm.trans hleft))

theorem ends_done : Ends resume (.done result, w) result w := ⟨0, rfl⟩

theorem Ends.paused {phase : φ} {wait : Transport.Wait} {instant : Instant}
    (hends : wait.ends = some instant)
    (h : Ends resume (resume phase (w.advanceTo instant)) result w') :
    Ends resume (.paused phase wait, w) result w' := by
  obtain ⟨fuel, hfuel⟩ := h
  refine ⟨fuel + 1, ?_⟩
  rw [finish, hends]
  exact hfuel

/-- The work after a number of pauses.  It stays what it is when it is done, and when it waits for
nothing that comes by itself. -/
def run (resume : φ → World → Stretch φ ρ) : Nat → Stretch φ ρ → Stretch φ ρ
  | 0, stretch => stretch
  | _ + 1, (.done result, world) => (.done result, world)
  | n + 1, (.paused phase wait, world) => match wait.ends with
    | none => (.paused phase wait, world)
    | some instant => run resume n (resume phase (world.advanceTo instant))

@[simp] theorem run_done (n : Nat) : run resume n (.done result, w) = (.done result, w) := by
  cases n <;> rfl

theorem run_of_finish {fuel : Nat} (h : finish resume fuel stretch = some (result, w)) :
    run resume fuel stretch = (.done result, w) := by
  induction fuel generalizing stretch with
  | zero =>
      match stretch with
      | (.done _, _) =>
          obtain ⟨rfl, rfl⟩ := Prod.mk.inj (Option.some.inj h)
          rfl
      | (.paused _ _, _) => cases h
  | succ fuel ih =>
      match stretch with
      | (.done _, _) =>
          obtain ⟨rfl, rfl⟩ := Prod.mk.inj (Option.some.inj h)
          rfl
      | (.paused phase wait, before) =>
          obtain ⟨rest, instant, hfuel, hends, hrest⟩ := finish_paused_eq_some h
          obtain rfl := Nat.succ.inj hfuel
          simp only [run, hends]
          exact ih hrest

section

variable {within : φ → ψ} {next : ρ → World → Stretch ψ τ} {result : τ}
  (hresume : ∀ phase world,
    resume' (within phase) world = (resume phase world).andThen within next)

include hresume

/-- When larger work ends, the work in it has ended, and what follows took the rest of the
patience. -/
theorem finish_andThen {fuel : Nat}
    (h : finish resume' fuel (stretch.andThen within next) = some (result, w')) :
    ∃ middle w₁ rest, rest ≤ fuel ∧ finish resume fuel stretch = some (middle, w₁) ∧
      finish resume' rest (next middle w₁) = some (result, w') := by
  induction fuel generalizing stretch with
  | zero =>
      match stretch with
      | (.done middle, w₁) => exact ⟨middle, w₁, 0, Nat.le_refl _, rfl, h⟩
      | (.paused _ _, _) => cases h
  | succ fuel ih =>
      match stretch with
      | (.done middle, w₁) => exact ⟨middle, w₁, fuel + 1, Nat.le_refl _, rfl, h⟩
      | (.paused phase wait, w₀) =>
          obtain ⟨left, instant, hfuel, hends, hleft⟩ := finish_paused_eq_some h
          obtain rfl := Nat.succ.inj hfuel
          rw [hresume] at hleft
          obtain ⟨middle, w₁, rest, hle, hmiddle, hrest⟩ := ih hleft
          refine ⟨middle, w₁, rest, Nat.le_succ_of_le hle, ?_, hrest⟩
          rw [finish, hends]
          exact hmiddle

theorem run_andThen {fuel : Nat} {middle : ρ} {w₁ : World}
    (h : finish resume fuel stretch = some (middle, w₁)) :
    ∃ pauses, ∀ n, run resume' (pauses + n) (stretch.andThen within next) =
      run resume' n (next middle w₁) := by
  induction fuel generalizing stretch with
  | zero =>
      match stretch with
      | (.done _, _) =>
          obtain ⟨rfl, rfl⟩ := Prod.mk.inj (Option.some.inj h)
          exact ⟨0, fun n => by rw [Nat.zero_add]; rfl⟩
      | (.paused _ _, _) => cases h
  | succ fuel ih =>
      match stretch with
      | (.done _, _) =>
          obtain ⟨rfl, rfl⟩ := Prod.mk.inj (Option.some.inj h)
          exact ⟨0, fun n => by rw [Nat.zero_add]; rfl⟩
      | (.paused phase wait, w₀) =>
          obtain ⟨left, instant, hleft, hends, hmiddle⟩ := finish_paused_eq_some h
          obtain rfl := Nat.succ.inj hleft
          obtain ⟨pauses, hpauses⟩ := ih hmiddle
          refine ⟨pauses + 1, fun n => ?_⟩
          rw [Nat.add_right_comm]
          simp only [Stretch.andThen, run, hends, hresume]
          exact hpauses n

theorem Ends.andThen {middle : ρ} {w₁ : World} (h : Ends resume stretch middle w₁)
    (hnext : Ends resume' (next middle w₁) result w') :
    Ends resume' (stretch.andThen within next) result w' := by
  obtain ⟨fuel, hfuel⟩ := h
  induction fuel generalizing stretch with
  | zero =>
      match stretch with
      | (.done _, _) =>
          obtain ⟨rfl, rfl⟩ := Prod.mk.inj (Option.some.inj hfuel)
          exact hnext
      | (.paused _ _, _) => cases hfuel
  | succ fuel ih =>
      match stretch with
      | (.done _, _) =>
          obtain ⟨rfl, rfl⟩ := Prod.mk.inj (Option.some.inj hfuel)
          exact hnext
      | (.paused phase wait, w₀) =>
          obtain ⟨left, instant, hleft, hends, hmiddle⟩ := finish_paused_eq_some hfuel
          obtain rfl := Nat.succ.inj hleft
          refine .paused hends ?_
          rw [hresume]
          exact ih hmiddle

end

end Stretch

/-! ## Time -/

/-- Work does not move the clock, and cancellations come and go without it. -/
structure World.SameTime (w w' : World) : Prop where
  now : w'.now = w.now
  agenda : w'.agenda = w.agenda

namespace World

theorem SameTime.refl (w : World) : SameTime w w := ⟨rfl, rfl⟩

theorem SameTime.trans {w w' w'' : World} (h : SameTime w w') (h' : SameTime w' w'') :
    SameTime w w'' :=
  ⟨h'.now.trans h.now, h'.agenda.trans h.agenda⟩

/-- At most the journal has one more entry. -/
def Noted (w w' : World) : Prop := w' = w ∨ ∃ level message, w' = w.note level message

theorem Noted.sameTime {w w' : World} (h : Noted w w') : SameTime w w' := by
  rcases h with rfl | ⟨level, message, rfl⟩
  · exact .refl _
  · exact ⟨rfl, rfl⟩

theorem Noted.sent {w w' : World} (h : Noted w w') : w'.sent = w.sent := by
  rcases h with rfl | ⟨level, message, rfl⟩
  · rfl
  · rfl

theorem canceled_eq {w : World} (h : w.agenda = []) (caller : Caller) :
    w.canceled caller = caller.canceled w.now := by
  simp [World.canceled, h]

end World

namespace Stretch

variable {φ ρ : Type} {resume : φ → World → Stretch φ ρ} {stretch : Stretch φ ρ} {result : ρ}
  {w w' : World}

/-- What holds after the first stretch, and is kept by the clock and by every stretch, holds
in the end. -/
theorem Ends.invariant {I : World → Prop} (htime : ∀ w instant, I w → I (w.advanceTo instant))
    (hresume : ∀ phase w, I w → I (resume phase w).2) (hfirst : I stretch.2)
    (h : Ends resume stretch result w') : I w' := by
  obtain ⟨fuel, hfuel⟩ := h
  induction fuel generalizing stretch with
  | zero =>
      match stretch with
      | (.done _, _) =>
          obtain ⟨rfl, rfl⟩ := Prod.mk.inj (Option.some.inj hfuel)
          exact hfirst
      | (.paused _ _, _) => cases hfuel
  | succ fuel ih =>
      match stretch with
      | (.done _, _) =>
          obtain ⟨rfl, rfl⟩ := Prod.mk.inj (Option.some.inj hfuel)
          exact hfirst
      | (.paused phase wait, w₀) =>
          obtain ⟨left, instant, hleft, -, hrest⟩ := finish_paused_eq_some hfuel
          obtain rfl := Nat.succ.inj hleft
          exact ih (hresume phase _ (htime w₀ instant hfirst)) hrest

theorem Ends.later (hresume : ∀ phase w, World.SameTime w (resume phase w).2)
    (hfirst : World.SameTime w stretch.2) (h : Ends resume stretch result w') :
    w.now ≤ w'.now ∧ w'.agenda = w.agenda := by
  refine h.invariant (I := fun w' => w.now ≤ w'.now ∧ w'.agenda = w.agenda) ?_ ?_
    ⟨Int.le_of_eq hfirst.now.symm, hfirst.agenda⟩
  · intro w₁ instant hI
    exact ⟨Int.le_trans hI.1 (Int.le_max_left _ _), hI.2⟩
  · intro phase w₁ hI
    have hsame := hresume phase w₁
    exact ⟨hsame.now ▸ hI.1, hsame.agenda.trans hI.2⟩

end Stretch

end BearerAuth
