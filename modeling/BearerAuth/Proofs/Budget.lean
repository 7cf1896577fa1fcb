import BearerAuth.Proofs.Alone
import BearerAuth.Proofs.Clock
import BearerAuth.Proofs.Timeline.Guarantee

/-!
# What work may still spend

Work that others interrupt at its pauses comes to an end when it can do three things only so
often: publish the outcome of a fetch, pause between two publications, and pause in an
exchange that is under way.  A `Budget` says how often a phase of the work may still do each
of them.  What others publish may give a phase more pauses, because there is news for it to
look at, and how often an exchange pauses is known only when it has begun; but to publish and
to begin something new is itself something that is spent, so together they come to an end
all the same.

A stretch of work spends of its budget (`Stretch.Spends`).  It also sets a timer when it
pauses for a caller that has a deadline, one that goes off at the deadline or before.
-/

namespace BearerAuth

/-! ## Worlds -/

namespace World

/-- How many outcomes have been published at each place. -/
def publications (w : World) (place : Nat) : Nat := (w.grant place).published

/-- The schedules in the pool are moderate. -/
def Paced (w : World) : Prop := ∀ entry ∈ w.pool, entry.2.schedule.Moderate

/-- Work does not move the clock, and new schedules in the pool are moderate. -/
structure Orderly (w w' : World) : Prop extends SameTime w w' where
  pool : ∀ entry ∈ w'.pool, entry ∈ w.pool ∨ entry.2.schedule.Moderate

variable {w w' w'' : World}

theorem Orderly.of_pool (h : SameTime w w') (hpool : w'.pool = w.pool) : Orderly w w' :=
  ⟨h, fun _ hentry => .inl (hpool ▸ hentry)⟩

theorem Orderly.refl (w : World) : Orderly w w := .of_pool (.refl w) rfl

theorem Orderly.trans (h : Orderly w w') (h' : Orderly w' w'') : Orderly w w'' := by
  refine ⟨h.toSameTime.trans h'.toSameTime, ?_⟩
  intro entry hentry
  rcases h'.pool entry hentry with hold | hnew
  · exact h.pool entry hold
  · exact .inr hnew

theorem Orderly.paced (h : Orderly w w') (hpaced : w.Paced) : w'.Paced := by
  intro entry hentry
  rcases h.pool entry hentry with hold | hnew
  · exact hpaced entry hold
  · exact hnew

theorem Noted.orderly (h : Noted w w') : Orderly w w' := by
  rcases h with rfl | ⟨level, message, rfl⟩
  · exact .refl _
  · exact .of_pool ⟨rfl, rfl⟩ rfl

theorem Noted.publications (h : Noted w w') : w'.publications = w.publications := by
  rcases h with rfl | ⟨level, message, rfl⟩
  · rfl
  · rfl

theorem publications_setGrant {place : Nat} {g : Grant}
    (h : g.published = (w.grant place).published) :
    (w.setGrant place g).publications = w.publications := by
  funext k
  simp only [publications, grant, setGrant]
  by_cases heq : place = k
  · subst heq
    by_cases hlt : place < w.grants.length
    · simpa [grant, hlt] using h
    · simp [hlt]
  · simp [heq]

end World

/-! ## Budgets -/

/-- How often work in a phase may still publish the outcome of a fetch, how often it may
still pause before the next publication, given all publications so far, how often the
exchange under way may still pause, and what else is known of its phases at an instant, then
and later. -/
structure Budget (φ : Type) where
  fetches : φ → Nat
  pauses : (Nat → Nat) → φ → Nat
  rank : φ → Nat
  mine : φ → Instant → Prop
  later : ∀ {phase now now'}, mine phase now → now ≤ now' → mine phase now'
  /-- How often all of the work may publish. -/
  allFetches : Nat
  /-- How often all of the work may pause before it has published anything. -/
  allPauses : Nat

/-- Work is part of larger work, which has a number of fetches and of pauses left when the part
is done. -/
structure Budget.PartOf {φ ψ : Type} (part : Budget φ) (larger : Budget ψ) (within : φ → ψ)
    (fetches pauses : Nat) : Prop where
  fetches : ∀ phase, larger.fetches (within phase) = part.fetches phase + fetches
  pauses : ∀ publications phase,
    larger.pauses publications (within phase) = part.pauses publications phase + pauses
  rank : ∀ phase, larger.rank (within phase) = part.rank phase

namespace Stretch

variable {φ ψ ρ τ : Type}

/-- The timer of a pause goes off at the deadline or before, or at once. -/
def Punctual (deadline : Option Instant) (now : Instant) (wait : Transport.Wait) : Prop :=
  ∀ instant, deadline = some instant →
    ∃ timer, wait.timer = some timer ∧ timer ≤ max now instant

/-- A stretch spends what its pause leaves of a number of fetches, of pauses and of pauses of
the exchange under way.  One that has published something has one fetch less, and may have any
number of pauses. -/
def Spends (budget : Budget φ) (deadline : Option Instant) (fetches pauses rank : Nat) (w : World)
    (stretch : Stretch φ ρ) : Prop :=
  w.Orderly stretch.2 ∧ match stretch.1 with
    | .done _ => stretch.2.publications = w.publications ∨ 0 < fetches
    | .paused phase wait => budget.mine phase w.now ∧ Punctual deadline w.now wait ∧
        (budget.fetches phase < fetches ∨ stretch.2.publications = w.publications ∧
          budget.fetches phase ≤ fetches ∧ (budget.pauses w.publications phase < pauses ∨
            budget.pauses w.publications phase ≤ pauses ∧ budget.rank phase < rank))

section

variable {budget : Budget φ} {deadline : Option Instant}
  {fetches fetches' pauses pauses' rank rank' : Nat} {w w' : World} {stretch : Stretch φ ρ}

theorem spends_done (result : ρ) (horderly : w.Orderly w')
    (hsame : w'.publications = w.publications) :
    Spends budget deadline fetches pauses rank w (.done result, w') :=
  ⟨horderly, .inl hsame⟩

theorem spends_paused {phase : φ} {wait : Transport.Wait} (horderly : w.Orderly w')
    (hsame : w'.publications = w.publications) (hmine : budget.mine phase w.now)
    (hpunctual : Punctual deadline w.now wait) (hfetches : budget.fetches phase ≤ fetches)
    (hpauses : budget.pauses w.publications phase < pauses) :
    Spends (ρ := ρ) budget deadline fetches pauses rank w (.paused phase wait, w') :=
  ⟨horderly, hmine, hpunctual, .inr ⟨hsame, hfetches, .inl hpauses⟩⟩

theorem spends_cheaper {phase : φ} {wait : Transport.Wait} (horderly : w.Orderly w')
    (hmine : budget.mine phase w.now) (hpunctual : Punctual deadline w.now wait)
    (hfetches : budget.fetches phase < fetches) :
    Spends (ρ := ρ) budget deadline fetches pauses rank w (.paused phase wait, w') :=
  ⟨horderly, hmine, hpunctual, .inl hfetches⟩

theorem spends_yield {phase : φ} (horderly : w.Orderly w')
    (hsame : w'.publications = w.publications) (hmine : budget.mine phase w.now)
    (hfetches : budget.fetches phase ≤ fetches)
    (hpauses : budget.pauses w.publications phase < pauses) :
    Spends (ρ := ρ) budget deadline fetches pauses rank w (.yield phase w') := by
  refine spends_paused horderly hsame hmine ?_ hfetches hpauses
  intro instant _
  exact ⟨w'.now, rfl, horderly.now ▸ Int.le_max_left _ _⟩

theorem Spends.mono (h : stretch.Spends budget deadline fetches pauses rank w)
    (hfetches : fetches ≤ fetches') (hpauses : pauses ≤ pauses') (hrank : rank ≤ rank') :
    stretch.Spends budget deadline fetches' pauses' rank' w := by
  obtain ⟨progress, w'⟩ := stretch
  obtain ⟨horderly, hspent⟩ := h
  refine ⟨horderly, ?_⟩
  cases progress with
  | done result =>
      rcases hspent with hsame | hpos
      · exact .inl hsame
      · exact .inr (Nat.lt_of_lt_of_le hpos hfetches)
  | paused phase wait =>
      obtain ⟨hmine, htimer, hspent⟩ := hspent
      refine ⟨hmine, htimer, ?_⟩
      rcases hspent with hlt | ⟨hsame, hle, hlt | ⟨hle', hlt⟩⟩
      · exact .inl (Nat.lt_of_lt_of_le hlt hfetches)
      · exact .inr ⟨hsame, Nat.le_trans hle hfetches, .inl (Nat.lt_of_lt_of_le hlt hpauses)⟩
      · exact .inr ⟨hsame, Nat.le_trans hle hfetches,
          .inr ⟨Nat.le_trans hle' hpauses, Nat.lt_of_lt_of_le hlt hrank⟩⟩

theorem Spends.after (h : stretch.Spends budget deadline fetches pauses rank w')
    (horderly : w.Orderly w') (hsame : w'.publications = w.publications) :
    stretch.Spends budget deadline fetches pauses rank w := by
  obtain ⟨progress, w''⟩ := stretch
  obtain ⟨horderly', hspent⟩ := h
  refine ⟨horderly.trans horderly', ?_⟩
  cases progress with
  | done result => rwa [hsame] at hspent
  | paused phase wait => rwa [hsame, horderly.now] at hspent

theorem Spends.andThen {larger : Budget ψ} {within : φ → ψ} {next : ρ → World → Stretch ψ τ}
    (h : stretch.Spends budget deadline fetches pauses rank w)
    (hpart : budget.PartOf larger within fetches' pauses')
    (hmine : ∀ phase, budget.mine phase w.now → larger.mine (within phase) w.now)
    (hnext : ∀ result w', w.Orderly w' →
      (next result w').Spends larger deadline fetches' pauses' 0 w') :
    (stretch.andThen within next).Spends larger deadline (fetches + fetches') (pauses + pauses')
      rank w := by
  obtain ⟨progress, w₁⟩ := stretch
  obtain ⟨horderly, hspent⟩ := h
  cases progress with
  | paused phase wait =>
      obtain ⟨hphase, htimer, hspent⟩ := hspent
      refine ⟨horderly, hmine phase hphase, htimer, ?_⟩
      rw [hpart.fetches, hpart.pauses, hpart.rank]
      rcases hspent with hlt | ⟨hsame, hle, hlt | ⟨hle', hlt⟩⟩
      · exact .inl (Nat.add_lt_add_right hlt _)
      · exact .inr ⟨hsame, Nat.add_le_add_right hle _, .inl (Nat.add_lt_add_right hlt _)⟩
      · exact .inr ⟨hsame, Nat.add_le_add_right hle _, .inr ⟨Nat.add_le_add_right hle' _, hlt⟩⟩
  | done result =>
      have hrest := hnext result w₁ horderly
      rw [andThen_done]
      rcases hspent with hsame | hpos
      · exact (hrest.after horderly hsame).mono (Nat.le_add_left _ _) (Nat.le_add_left _ _)
          (Nat.zero_le _)
      -- The first part has published, so whatever follows has cost a fetch.
      · generalize next result w₁ = rest at hrest ⊢
        obtain ⟨progress, w₂⟩ := rest
        obtain ⟨horderly', hspent'⟩ := hrest
        refine ⟨horderly.trans horderly', ?_⟩
        cases progress with
        | done final => exact .inr (Nat.lt_of_lt_of_le hpos (Nat.le_add_right _ _))
        | paused phase wait =>
            obtain ⟨hphase, htimer, hspent'⟩ := hspent'
            rw [horderly.now] at hphase htimer
            refine ⟨hphase, htimer, .inl ?_⟩
            rcases hspent' with hlt | ⟨-, hle, -⟩
            · omega
            · omega

end

end Stretch

end BearerAuth
