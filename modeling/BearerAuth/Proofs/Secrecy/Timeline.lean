import BearerAuth.Proofs.Secrecy.Transport

/-!
# Paired timelines

Jobs that do the same in paired worlds take the same turns: the line, the alarms and the next event
are the same on both timelines (`Timelines.event?_eq`), and so a step of one is a step of the other
(`Timelines.step?`), a whole run a run (`Timelines.run`), and the jobs end with paired results in
paired worlds (`complete_pairs`).
-/

namespace BearerAuth

open Transport Timeline

namespace Pairing

variable {φ φ' ρ ρ' : Type} {σ : Pairing} {phases : φ → φ' → Prop} {results : ρ → ρ' → Prop}

/-- Jobs of one caller that begin at one instant and do the same. -/
structure Jobs (σ : Pairing) (phases : φ → φ' → Prop) (results : ρ → ρ' → Prop) (job : Job φ ρ)
    (job' : Job φ' ρ') : Prop where
  caller : job.caller = job'.caller
  begins : job.begins = job'.begins
  start : ∀ {world world'}, σ.Worlds world world' →
    σ.Stretches phases results (job.start world) (job'.start world')
  resume : ∀ {phase phase' world world'}, phases phase phase' → σ.Worlds world world' →
    σ.Stretches phases results (job.resume phase world) (job'.resume phase' world')

inductive Slots (σ : Pairing) (phases : φ → φ' → Prop) (results : ρ → ρ' → Prop) :
    Slot φ ρ → Slot φ' ρ' → Prop
  | idle (since : Option Nat) : Slots σ phases results (.idle since) (.idle since)
  | waiting {phase : φ} {phase' : φ'} (wait : Wait) (since : Nat) : phases phase phase' →
      Slots σ phases results (.waiting phase wait since) (.waiting phase' wait since)
  | ended {result : ρ} {result' : ρ'} {world world' : World} : results result result' →
      σ.Worlds world world' → Slots σ phases results (.ended result world) (.ended result' world')

/-- Timelines on which the same happens. -/
structure Timelines (σ : Pairing) (phases : φ → φ' → Prop) (results : ρ → ρ' → Prop)
    (t : Timeline φ ρ) (t' : Timeline φ' ρ') : Prop where
  world : σ.Worlds t.world t'.world
  jobs : List.Forall₂ (σ.Jobs phases results) t.jobs t'.jobs
  slots : List.Forall₂ (σ.Slots phases results) t.slots t'.slots
  line : t.line = t'.line
  turn : t.turn = t'.turn
  ties : t.ties = t'.ties

/-! ## Slots -/

section

variable {slot : Slot φ ρ} {slot' : Slot φ' ρ'}

theorem Slots.hasEnded_eq (h : σ.Slots phases results slot slot') :
    slot'.hasEnded = slot.hasEnded := by
  cases h <;> rfl

theorem Slots.isBrief_eq (h : σ.Slots phases results slot slot') :
    slot'.isBrief = slot.isBrief := by
  cases h <;> rfl

theorem Slots.heedsCancellation_eq (h : σ.Slots phases results slot slot') :
    slot'.heedsCancellation = slot.heedsCancellation := by
  cases h <;> rfl

theorem Slots.alarm?_eq {job : Job φ ρ} {job' : Job φ' ρ'} (h : σ.Slots phases results slot slot')
    (hjobs : σ.Jobs phases results job job') (ticket : Ticket) :
    alarm? ticket job' slot' = alarm? ticket job slot := by
  cases h with
  | idle since => rw [alarm?, alarm?, hjobs.begins]
  | waiting => rfl
  | ended => rfl

theorem Slots.result? (h : σ.Slots phases results slot slot') :
    Option.Rel (fun a b => results a.1 b.1 ∧ σ.Worlds a.2 b.2) slot.result? slot'.result? := by
  cases h with
  | idle => exact .none
  | waiting => exact .none
  | ended hresults hworlds => exact .some ⟨hresults, hworlds⟩

theorem Stretches.slots {stretch : Stretch φ ρ} {stretch' : Stretch φ' ρ'}
    (h : σ.Stretches phases results stretch stretch') (turn : Nat) :
    σ.Slots phases results (.after turn stretch) (.after turn stretch') := by
  cases h with
  | done hresults hworlds => exact .ended hresults hworlds
  | paused wait hphases _ => exact .waiting wait turn hphases

theorem work_pairs {job : Job φ ρ} {job' : Job φ' ρ'} {world world' : World}
    (hjobs : σ.Jobs phases results job job') (hslots : σ.Slots phases results slot slot')
    (hworlds : σ.Worlds world world') (turn : Nat) :
    σ.Slots phases results (work turn job world slot).1 (work turn job' world' slot').1 ∧
      σ.Worlds (work turn job world slot).2 (work turn job' world' slot').2 := by
  cases hslots with
  | idle since =>
      rw [work, work, ← hworlds.now, ← hjobs.begins]
      split
      · exact ⟨.idle _, hworlds⟩
      · exact ⟨(hjobs.start hworlds).slots turn, (hjobs.start hworlds).worlds⟩
  | waiting wait since hphases =>
      rw [work, work]
      exact ⟨(hjobs.resume hphases hworlds).slots turn, (hjobs.resume hphases hworlds).worlds⟩
  | ended hresults hended =>
      rw [work, work]
      exact ⟨.ended hresults hended, hworlds⟩

end

/-! ## Steps -/

section

variable {t : Timeline φ ρ} {t' : Timeline φ' ρ'}

theorem Timelines.alarms_eq (h : σ.Timelines phases results t t') (ticket : Ticket) :
    alarmsFrom ticket t'.jobs t'.slots = alarmsFrom ticket t.jobs t.slots := by
  have hjobs := h.jobs
  have hslots := h.slots
  generalize t.slots = slots at hslots ⊢
  generalize t'.slots = slots' at hslots ⊢
  generalize t.jobs = jobs at hjobs ⊢
  generalize t'.jobs = jobs' at hjobs ⊢
  induction hslots generalizing ticket jobs jobs' with
  | nil =>
      cases hjobs with
      | nil => rfl
      | cons => rfl
  | cons hslot _ ih =>
      cases hjobs with
      | nil => rfl
      | cons hjob hjobs =>
          rw [alarmsFrom, alarmsFrom, hslot.alarm?_eq hjob, ih (ticket + 1) _ _ hjobs]

theorem Timelines.event?_eq (h : σ.Timelines phases results t t') : t'.event? = t.event? := by
  have hended : t'.slots.all Slot.hasEnded = t.slots.all Slot.hasEnded := by
    have hslots := h.slots
    generalize t.slots = slots at hslots ⊢
    generalize t'.slots = slots' at hslots ⊢
    induction hslots with
    | nil => rfl
    | cons hslot _ ih => rw [List.all_cons, List.all_cons, hslot.hasEnded_eq, ih]
  rw [Timeline.event?, Timeline.event?, hended, h.alarms_eq, h.world.agenda, h.ties]

theorem Timelines.any_eq (h : σ.Timelines phases results t t') (ticket : Ticket)
    {p : Slot φ ρ → Bool} {p' : Slot φ' ρ' → Bool}
    (hsame : ∀ slot slot', σ.Slots phases results slot slot' → p' slot' = p slot) :
    t'.slots[ticket]?.any p' = t.slots[ticket]?.any p := by
  have hslots := forall₂_getElem? h.slots ticket
  generalize t.slots[ticket]? = slot at hslots ⊢
  generalize t'.slots[ticket]? = slot' at hslots ⊢
  cases hslots with
  | none => rfl
  | some hslot => exact hsame _ _ hslot

theorem Timelines.brief?_eq (h : σ.Timelines phases results t t') : t'.brief? = t.brief? := by
  rw [Timeline.brief?, Timeline.brief?, h.alarms_eq, h.world.now]
  congr 1
  funext alarm
  rw [h.any_eq alarm.ticket fun _ _ hslots => hslots.isBrief_eq]

theorem Timelines.takeTurn (h : σ.Timelines phases results t t') (ticket : Ticket) :
    σ.Timelines phases results (t.takeTurn ticket) (t'.takeTurn ticket) := by
  have hjobs := forall₂_getElem? h.jobs ticket
  have hslots := forall₂_getElem? h.slots ticket
  rw [Timeline.takeTurn, Timeline.takeTurn]
  generalize t.jobs[ticket]? = job at hjobs ⊢
  generalize t'.jobs[ticket]? = job' at hjobs ⊢
  generalize t.slots[ticket]? = slot at hslots ⊢
  generalize t'.slots[ticket]? = slot' at hslots ⊢
  cases hjobs with
  | none => exact h
  | @some job job' hjobs =>
      cases hslots with
      | none => exact h
      | @some slot slot' hslots =>
          obtain ⟨hslot, hworld⟩ := work_pairs hjobs hslots h.world t.turn
          simp only [← h.turn, summoned, hslot.heedsCancellation_eq, ← hjobs.caller,
            hworld.canceled_eq, ← hworld.released, ← h.line]
          exact
            { world := { hworld with released := rfl }
              jobs := h.jobs
              slots := forall₂_set h.slots ticket hslot
              line := rfl
              turn := rfl
              ties := h.ties }

theorem Timelines.cancel (h : σ.Timelines phases results t t') (c : Cancellation) :
    σ.Timelines phases results (t.cancel c) (t'.cancel c) := by
  have hheeded := h.any_eq c.ticket fun _ _ hslots => hslots.heedsCancellation_eq
  have hadvanced := h.world.advanceTo c.instant
  refine ⟨{ hadvanced with agenda := ?_ }, h.jobs, h.slots, ?_, h.turn, h.ties⟩
  · simp only [Timeline.cancel, hadvanced.agenda]
  · simp only [Timeline.cancel, hheeded, h.line]

theorem Timelines.happen (h : σ.Timelines phases results t t') (event : Event) :
    σ.Timelines phases results (t.happen event) (t'.happen event) := by
  cases event with
  | cancellation c => exact h.cancel c
  | alarm alarm =>
      have hadvanced : σ.Timelines phases results
          { t with world := t.world.advanceTo alarm.instant }
          { t' with world := t'.world.advanceTo alarm.instant } :=
        { h with world := h.world.advanceTo alarm.instant }
      exact hadvanced.takeTurn alarm.ticket

theorem Timelines.step? (h : σ.Timelines phases results t t') :
    Option.Rel (σ.Timelines phases results) t.step? t'.step? := by
  rw [Timeline.step?, Timeline.step?, h.brief?_eq, ← h.line]
  have hleft (rest : List Ticket) :
      σ.Timelines phases results { t with line := rest } { t' with line := rest } :=
    { h with line := rfl }
  cases t.brief? with
  | some alarm => exact .some ((hleft _).takeTurn alarm.ticket)
  | none => cases t.line with
    | nil =>
        simp only [h.event?_eq]
        cases t.event? with
        | none => exact .none
        | some event => exact .some (h.happen event)
    | cons ticket rest => exact .some ((hleft rest).takeTurn ticket)

/-- What the same steps lead to, however many there are. -/
theorem Timelines.run (h : σ.Timelines phases results t t') (fuel : Nat) :
    σ.Timelines phases results (t.run fuel) (t'.run fuel) := by
  induction fuel generalizing t t' with
  | zero => exact h
  | succ fuel ih =>
      have hstep := h.step?
      rw [Timeline.run, Timeline.run]
      generalize t.step? = next at hstep ⊢
      generalize t'.step? = next' at hstep ⊢
      cases hstep with
      | none => exact h
      | some hnext => exact ih hnext

theorem Timelines.results? (h : σ.Timelines phases results t t') :
    Option.Rel (List.Forall₂ fun a b => results a.1 b.1 ∧ σ.Worlds a.2 b.2) t.results?
      t'.results? := by
  have hslots := h.slots
  rw [Timeline.results?, Timeline.results?]
  generalize t.slots = slots at hslots ⊢
  generalize t'.slots = slots' at hslots ⊢
  induction hslots with
  | nil => exact .some .nil
  | @cons slot slot' rest rest' hslot _ ih =>
      have hresult := hslot.result?
      rw [List.mapM_cons, List.mapM_cons]
      generalize slot.result? = first at hresult ⊢
      generalize slot'.result? = first' at hresult ⊢
      cases hresult with
      | none => exact .none
      | some hfirst =>
          generalize rest.mapM Slot.result? = others at ih ⊢
          generalize rest'.mapM Slot.result? = others' at ih ⊢
          cases ih with
          | none => exact .none
          | some hothers => exact .some (.cons hfirst hothers)

end

/-! ## From beginning to end -/

section

variable {jobs : List (Job φ ρ)} {jobs' : List (Job φ' ρ')} {world world' : World}

theorem ofJobs_pairs (hjobs : List.Forall₂ (σ.Jobs phases results) jobs jobs')
    (hworlds : σ.Worlds world world') (ties : Ties) :
    σ.Timelines phases results (ofJobs world jobs ties) (ofJobs world' jobs' ties) := by
  have hagenda : (jobs.filterMap fun job => job.caller.cancellation? world.now) =
      jobs'.filterMap fun job => job.caller.cancellation? world'.now := by
    rw [hworlds.now]
    induction hjobs with
    | nil => rfl
    | cons hjob _ ih => rw [List.filterMap_cons, List.filterMap_cons, hjob.caller, ih]
  refine ⟨{ hworlds with agenda := hagenda }, hjobs, ?_, ?_, rfl, rfl⟩
  · simp only [ofJobs]
    clear hagenda
    induction hjobs with
    | nil => exact .nil
    | cons _ _ ih => exact .cons (.idle none) ih
  · simp only [ofJobs, hjobs.length_eq]

/-- Results of jobs, with the worlds of their ends, and the world after the last of them. -/
abbrev Ends (σ : Pairing) (results : ρ → ρ' → Prop) (a : List (ρ × World) × World)
    (b : List (ρ' × World) × World) : Prop :=
  List.Forall₂ (fun a b => results a.1 b.1 ∧ σ.Worlds a.2 b.2) a.1 b.1 ∧ σ.Worlds a.2 b.2

theorem ends_pairs (hjobs : List.Forall₂ (σ.Jobs phases results) jobs jobs')
    (hworlds : σ.Worlds world world') (ties : Ties) (fuel : Nat) :
    Option.Rel (σ.Ends results)
      (((ofJobs world jobs ties).run fuel).results?.map fun results =>
        (results, { ((ofJobs world jobs ties).run fuel).world with agenda := [] }))
      (((ofJobs world' jobs' ties).run fuel).results?.map fun results =>
        (results, { ((ofJobs world' jobs' ties).run fuel).world with agenda := [] })) := by
  have hrun := (ofJobs_pairs hjobs hworlds ties).run fuel
  have hresults := hrun.results?
  generalize (ofJobs world jobs ties).run fuel = t at hrun hresults ⊢
  generalize (ofJobs world' jobs' ties).run fuel = t' at hrun hresults ⊢
  generalize t.results? = outcome at hresults ⊢
  generalize t'.results? = outcome' at hresults ⊢
  cases hresults with
  | none => exact .none
  | some hresults => exact .some ⟨hresults, { hrun.world with agenda := rfl }⟩

/-- Jobs that do the same end with paired results, in paired worlds. -/
theorem complete_pairs (hjobs : List.Forall₂ (σ.Jobs phases results) jobs jobs')
    (hworlds : σ.Worlds world world') (ties : Ties) :
    Option.Rel (σ.Ends results) (Timeline.complete world jobs ties)
      (Timeline.complete world' jobs' ties) := by
  rw [Timeline.complete, Timeline.complete, ← hjobs.length_eq]
  exact ends_pairs hjobs hworlds ties _

theorem finish_pairs {resume : φ → World → Stretch φ ρ} {resume' : φ' → World → Stretch φ' ρ'}
    (hresume : ∀ {phase phase' world world'}, phases phase phase' → σ.Worlds world world' →
      σ.Stretches phases results (resume phase world) (resume' phase' world'))
    {stretch : Stretch φ ρ} {stretch' : Stretch φ' ρ'}
    (h : σ.Stretches phases results stretch stretch') (fuel : Nat) :
    Option.Rel (fun a b => results a.1 b.1 ∧ σ.Worlds a.2 b.2) (Stretch.finish resume fuel stretch)
      (Stretch.finish resume' fuel stretch') := by
  induction fuel generalizing stretch stretch' with
  | zero =>
      cases h with
      | done hresults hworlds => exact .some ⟨hresults, hworlds⟩
      | paused => exact .none
  | succ fuel ih =>
      cases h with
      | done hresults hworlds => exact .some ⟨hresults, hworlds⟩
      | paused wait hphases hworlds =>
          rw [Stretch.finish, Stretch.finish]
          cases wait.ends with
          | none => exact .none
          | some instant => exact ih (hresume hphases (hworlds.advanceTo instant))

end

end Pairing

end BearerAuth
