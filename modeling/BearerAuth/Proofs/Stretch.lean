import BearerAuth.Timeline

/-!
# Work seen from its end

Work runs in stretches, and between two of them others may change the world.
`Stretch.through` runs work through its pauses with nothing assumed about what
happens in them: the worlds in which it goes on are given, one for each pause.
A lone caller is the case in which the clock alone moves
(`through_of_finish`).

What follows a reply is work that is done, so it commutes with all of this
(`through_andThen`): the larger work pauses when the smaller one does, and ends
with what follows its result.
-/

namespace BearerAuth

namespace Stretch

variable {φ ψ ρ τ : Type}

def result? : Stretch φ ρ → Option ρ
  | (.done result, _) => some result
  | (.paused _ _, _) => none

@[simp] theorem result?_done (result : ρ) (world : World) :
    result? ((.done result, world) : Stretch φ ρ) = some result := rfl

theorem result?_eq_some {result : ρ} {stretch : Stretch φ ρ} (h : stretch.result? = some result) :
    ∃ world, stretch = (.done result, world) := by
  match stretch with
  | (.done result', world) =>
      cases h
      exact ⟨world, rfl⟩
  | (.paused _ _, _) => cases h

/-! ## Going on after a result -/

@[simp] theorem andThen_done (result : ρ) (world : World) (within : φ → ψ)
    (next : ρ → World → Stretch ψ τ) :
    andThen (.done result, world) within next = next result world := rfl

@[simp] theorem andThen_paused (phase : φ) (wait : Transport.Wait) (world : World)
    (within : φ → ψ) (next : ρ → World → Stretch ψ τ) :
    andThen (.paused phase wait, world) within next =
      (.paused (within phase) wait, world) := rfl

/-- What follows a result never waits itself. -/
def Settles (next : ρ → World → Stretch ψ τ) : Prop :=
  ∀ result world, ∃ outcome world', next result world = (.done outcome, world')

/-! ## Going on after pauses -/

/-- Runs work through its pauses.  Each of them ends in the next world of the
list, whatever others have made of it by then; work that pauses more often than
the list is long still pauses in the end. -/
def through (resume : φ → World → Stretch φ ρ) : List World → Stretch φ ρ → Stretch φ ρ
  | _, (.done result, world) => (.done result, world)
  | [], (.paused phase wait, world) => (.paused phase wait, world)
  | next :: worlds, (.paused phase _, _) => through resume worlds (resume phase next)

@[simp] theorem through_done (resume : φ → World → Stretch φ ρ) (worlds : List World)
    (result : ρ) (world : World) :
    through resume worlds (.done result, world) = (.done result, world) := by
  cases worlds <;> rfl

theorem through_nil (resume : φ → World → Stretch φ ρ) (stretch : Stretch φ ρ) :
    through resume [] stretch = stretch := by
  match stretch with
  | (.done _, _) => rfl
  | (.paused _ _, _) => rfl

theorem through_andThen {resume : φ → World → Stretch φ ρ} {resume' : ψ → World → Stretch ψ τ}
    {within : φ → ψ} {next : ρ → World → Stretch ψ τ}
    (hresume : ∀ phase world,
      resume' (within phase) world = (resume phase world).andThen within next)
    (hdone : Settles next) :
    ∀ (worlds : List World) (stretch : Stretch φ ρ),
      through resume' worlds (stretch.andThen within next) =
        (through resume worlds stretch).andThen within next
  | worlds, (.done result, world) => by
      obtain ⟨outcome, world', h⟩ := hdone result world
      simp [h]
  | [], (.paused _ _, _) => rfl
  | next' :: worlds, (.paused phase _, _) => by
      simp only [andThen_paused, through, hresume]
      exact through_andThen hresume hdone worlds _

/-- Work comes to its end: its pauses end in the worlds of the list, and it has no others. -/
inductive Completes (resume : φ → World → Stretch φ ρ) (result : ρ) (world' : World) :
    List World → Stretch φ ρ → Prop
  | done : Completes resume result world' [] (.done result, world')
  | paused {phase : φ} {wait : Transport.Wait} {world next : World} {worlds : List World} :
      Completes resume result world' worlds (resume phase next) →
      Completes resume result world' (next :: worlds) (.paused phase wait, world)

theorem Completes.through_eq {resume : φ → World → Stretch φ ρ} {result : ρ} {world' : World}
    {worlds : List World} {stretch : Stretch φ ρ}
    (h : Completes resume result world' worlds stretch) :
    through resume worlds stretch = (.done result, world') := by
  induction h with
  | done => exact through_nil ..
  | paused _ ih => exact ih

theorem completes_of_through {resume : φ → World → Stretch φ ρ} {result : ρ} {world' : World}
    {worlds : List World} {stretch : Stretch φ ρ}
    (h : through resume worlds stretch = (.done result, world')) :
    ∃ before after, worlds = before ++ after ∧ Completes resume result world' before stretch := by
  induction worlds generalizing stretch with
  | nil =>
      rw [through_nil] at h
      exact ⟨[], [], rfl, h ▸ .done⟩
  | cons next worlds ih =>
      obtain ⟨progress, world⟩ := stretch
      cases progress with
      | done result' =>
          cases h
          exact ⟨[], next :: worlds, rfl, .done⟩
      | paused phase wait =>
          obtain ⟨before, after, rfl, hcompletes⟩ := ih h
          exact ⟨next :: before, after, rfl, .paused hcompletes⟩

theorem Completes.through_andThen {resume : φ → World → Stretch φ ρ}
    {resume' : ψ → World → Stretch ψ τ} {within : φ → ψ} {next : ρ → World → Stretch ψ τ}
    {result : ρ} {world' : World} {before : List World} {stretch : Stretch φ ρ}
    (hresume : ∀ phase world,
      resume' (within phase) world = (resume phase world).andThen within next)
    (h : Completes resume result world' before stretch) (after : List World) :
    through resume' (before ++ after) (stretch.andThen within next) =
      through resume' after (next result world') := by
  induction h with
  | done => rfl
  | paused _ ih =>
      rw [List.cons_append, andThen_paused, through, hresume]
      exact ih

theorem through_andThen_paused {resume : φ → World → Stretch φ ρ}
    {resume' : ψ → World → Stretch ψ τ} {within : φ → ψ} {next : ρ → World → Stretch ψ τ}
    {phase : φ} {wait : Transport.Wait} {world' : World}
    (hresume : ∀ phase world,
      resume' (within phase) world = (resume phase world).andThen within next)
    {worlds : List World} {stretch : Stretch φ ρ}
    (h : through resume worlds stretch = (.paused phase wait, world')) :
    through resume' worlds (stretch.andThen within next) =
      (.paused (within phase) wait, world') := by
  induction worlds generalizing stretch with
  | nil =>
      rw [through_nil] at h
      rw [through_nil, h, andThen_paused]
  | cons next' worlds ih =>
      obtain ⟨progress, world⟩ := stretch
      cases progress with
      | done result => cases h
      | paused phase' wait' =>
          rw [andThen_paused, through, hresume]
          exact ih h

/-- Work that is part of a larger one comes to its end before that does, at one of the pauses, and
what follows its result takes up the others. -/
theorem through_split {resume : φ → World → Stretch φ ρ} {resume' : ψ → World → Stretch ψ τ}
    {within : φ → ψ} {next : ρ → World → Stretch ψ τ} {outcome : τ} {world' : World}
    (hresume : ∀ phase world,
      resume' (within phase) world = (resume phase world).andThen within next)
    (worlds : List World) (stretch : Stretch φ ρ)
    (h : through resume' worlds (stretch.andThen within next) = (.done outcome, world')) :
    ∃ before after result world, worlds = before ++ after ∧
      through resume before stretch = (.done result, world) ∧
      through resume' after (next result world) = (.done outcome, world') := by
  obtain ⟨⟨progress, world⟩, hpart⟩ : ∃ part, through resume worlds stretch = part := ⟨_, rfl⟩
  cases progress with
  | done result =>
      obtain ⟨before, after, rfl, hcompletes⟩ := completes_of_through hpart
      rw [hcompletes.through_andThen hresume after] at h
      exact ⟨before, after, result, world, rfl, hcompletes.through_eq, h⟩
  | paused phase wait =>
      rw [through_andThen_paused hresume hpart] at h
      cases h

/-- A lone caller's run is one of these: in its pauses only the clock moves. -/
theorem through_of_finish {resume : φ → World → Stretch φ ρ} {result : ρ} {world : World} :
    ∀ {fuel : Nat} {stretch : Stretch φ ρ}, finish resume fuel stretch = some (result, world) →
      ∃ worlds, through resume worlds stretch = (.done result, world)
  | _, (.done _, _), h => by
      simp only [finish, Option.some.injEq, Prod.mk.injEq] at h
      exact ⟨[], by rw [through_nil, h.1, h.2]⟩
  | 0, (.paused _ _, _), h => by simp [finish] at h
  | fuel + 1, (.paused phase wait, before), h => by
      simp only [finish] at h
      cases hends : wait.ends with
      | none => simp [hends] at h
      | some instant =>
          rw [hends] at h
          obtain ⟨worlds, hrun⟩ := through_of_finish h
          exact ⟨before.advanceTo instant :: worlds, hrun⟩

end Stretch

end BearerAuth
