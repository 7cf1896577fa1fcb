import BearerAuth.Proofs.Timeline.Interleaving

/-!
# What callers guarantee each other

A job is looked at one stretch at a time: `Stretch.Keeps` says how a stretch
may change the world, which phases it may pause in and which results it may
give.  When every stretch of every job keeps its promise, and the phase of each
job outlasts what the others do (`Guaranteed`), then so does every run, in
whatever order the turns are taken (`Guaranteed.next`).  The clock, the agenda
and the list of the released are left to the timeline: promises say nothing
about them (`World.Alike`).
-/

namespace BearerAuth

structure World.Alike (w w' : World) : Prop where
  sent : w'.sent = w.sent
  journal : w'.journal = w.journal
  grants : w'.grants = w.grants
  pool : w'.pool = w.pool
  filed : w'.filed = w.filed
  called : w'.called = w.called

/-- The timeline keeps the time, the agenda and the released. -/
theorem World.alike_timed (w : World) (now : Instant) (released : List Ticket)
    (agenda : List Cancellation) : World.Alike w { w with now, released, agenda } :=
  ⟨rfl, rfl, rfl, rfl, rfl, rfl⟩

theorem World.Alike.refl (w : World) : World.Alike w w := ⟨rfl, rfl, rfl, rfl, rfl, rfl⟩

theorem World.Alike.trans {w w' w'' : World} (h : World.Alike w w') (h' : World.Alike w' w'') :
    World.Alike w w'' :=
  ⟨h'.sent.trans h.sent, h'.journal.trans h.journal, h'.grants.trans h.grants,
    h'.pool.trans h.pool, h'.filed.trans h.filed, h'.called.trans h.called⟩

namespace Stretch

variable {φ ψ ρ τ : Type}

/-- A stretch of work from a world on changes it as `step` allows, and pauses
as `mine` allows or gives a result as `gives` allows. -/
def Keeps (step : World → World → Prop) (mine : φ → World → Prop) (gives : ρ → World → Prop)
    (before : World) (stretch : Stretch φ ρ) : Prop :=
  step before stretch.2 ∧ match stretch.1 with
    | .done result => gives result stretch.2
    | .paused phase _ => mine phase stretch.2

section

variable {step step' : World → World → Prop} {mine mine' : φ → World → Prop}
  {gives gives' : ρ → World → Prop} {before : World} {stretch : Stretch φ ρ}

theorem Keeps.mono (h : stretch.Keeps step mine gives before)
    (hstep : ∀ w', step before w' → step' before w')
    (hmine : ∀ phase w', step before w' → mine phase w' → mine' phase w')
    (hgives : ∀ result w', step before w' → gives result w' → gives' result w') :
    stretch.Keeps step' mine' gives' before := by
  obtain ⟨progress, world⟩ := stretch
  obtain ⟨hs, hp⟩ := h
  refine ⟨hstep _ hs, ?_⟩
  cases progress with
  | done result => exact hgives _ _ hs hp
  | paused phase wait => exact hmine _ _ hs hp

theorem Keeps.andThen {mine' : ψ → World → Prop} {gives' : τ → World → Prop} {within : φ → ψ}
    {next : ρ → World → Stretch ψ τ}
    (htrans : ∀ {a b c}, step a b → step b c → step a c)
    (h : stretch.Keeps step mine gives before)
    (hmine : ∀ phase w', step before w' → mine phase w' → mine' (within phase) w')
    (hnext : ∀ result w', step before w' → gives result w' →
      (next result w').Keeps step mine' gives' w') :
    (stretch.andThen within next).Keeps step mine' gives' before := by
  obtain ⟨progress, world⟩ := stretch
  obtain ⟨hs, hp⟩ := h
  cases progress with
  | done result =>
      obtain ⟨hs', hp'⟩ := hnext result world hs hp
      exact ⟨htrans hs hs', hp'⟩
  | paused phase wait => exact ⟨hs, hmine phase world hs hp⟩

end

end Stretch

namespace Timeline

variable {φ ρ : Type}

/-- Every stretch of every job keeps its promise, from good worlds to good
worlds, and the phase of each job outlasts the work of the others. -/
structure Guaranteed (jobs : List (Job φ ρ)) (good : World → Prop)
    (mine : Ticket → φ → World → Prop) (step : Ticket → World → World → Prop) : Prop where
  good_alike : ∀ {w w'}, World.Alike w w' → good w → good w'
  mine_alike : ∀ {i phase w w'}, World.Alike w w' → mine i phase w → mine i phase w'
  good_step : ∀ {i w w'}, step i w w' → good w → good w'
  mine_step : ∀ {i j phase w w'}, step i w w' → good w → mine j phase w → mine j phase w'
  start : ∀ {i} {job : Job φ ρ} {w}, jobs[i]? = some job → good w →
    (job.start w).Keeps (step i) (mine i) (fun _ _ => True) w
  resume : ∀ {i} {job : Job φ ρ} {phase w}, jobs[i]? = some job → good w → mine i phase w →
    (job.resume phase w).Keeps (step i) (mine i) (fun _ _ => True) w

/-- The world is good, and every pause is in a phase as promised. -/
structure Sound (good : World → Prop) (mine : Ticket → φ → World → Prop)
    (t : Timeline φ ρ) : Prop where
  good : good t.world
  mine : ∀ {i phase wait since}, t.slots[i]? = some (.waiting phase wait since) →
    mine i phase t.world

/-- What a step may have done to the world: a turn is the work of its job. -/
def Changes (step : Ticket → World → World → Prop) (label : Option Ticket) (w w' : World) :
    Prop :=
  World.Alike w w' ∨ ∃ i w'', label = some i ∧ step i w w'' ∧ World.Alike w'' w'

section

variable {jobs : List (Job φ ρ)} {good : World → Prop} {mine : Ticket → φ → World → Prop}
  {step : Ticket → World → World → Prop} {t t' : Timeline φ ρ}

/-- A new beginning: all wait for their first turns. -/
theorem sound_ofJobs {world : World} (hg : Guaranteed jobs good mine step) (h : good world) :
    Sound good mine (ofJobs world jobs) where
  good := hg.good_alike (world.alike_timed _ _ _) h
  mine := by
    intro i phase wait since hslot
    cases (ofJobs_slots_iff.mp hslot).1

/-- Slots outlast a change of the world that nobody's work made. -/
theorem Sound.alike (hg : Guaranteed jobs good mine step) (h : Sound good mine t)
    (hworld : World.Alike t.world t'.world) (hslots : t'.slots = t.slots) :
    Sound good mine t' where
  good := hg.good_alike hworld h.good
  mine hslot := hg.mine_alike hworld (h.mine (hslots ▸ hslot))

theorem work_keeps (hg : Guaranteed jobs good mine step) (h : Sound good mine t) {i : Ticket}
    {job : Job φ ρ} {slot : Slot φ ρ} (hjob : jobs[i]? = some job)
    (hslot : t.slots[i]? = some slot) :
    (World.Alike t.world (work t.turn job t.world slot).2 ∨
        step i t.world (work t.turn job t.world slot).2) ∧
      ∀ phase wait since, (work t.turn job t.world slot).1 = .waiting phase wait since →
        mine i phase (work t.turn job t.world slot).2 := by
  have hstretch {stretch : Stretch φ ρ}
      (hkeeps : stretch.Keeps (step i) (mine i) (fun _ _ => True) t.world) :
      step i t.world stretch.2 ∧ ∀ phase wait since,
        Slot.after t.turn stretch = .waiting phase wait since → mine i phase stretch.2 := by
    obtain ⟨progress, world⟩ := stretch
    obtain ⟨hs, hp⟩ := hkeeps
    refine ⟨hs, fun phase wait since hafter => ?_⟩
    cases progress with
    | done result => cases hafter
    | paused phase' wait' => cases hafter; exact hp
  cases slot with
  | idle since =>
      by_cases hearly : t.world.now < job.begins
      · simp only [work, hearly, if_true]
        exact ⟨.inl (.refl _), fun _ _ _ hafter => by cases hafter⟩
      · simp only [work, hearly, if_false]
        obtain ⟨hs, hp⟩ := hstretch (hg.start hjob h.good)
        exact ⟨.inr hs, hp⟩
  | waiting phase wait since =>
      obtain ⟨hs, hp⟩ := hstretch (hg.resume hjob h.good (h.mine hslot))
      exact ⟨.inr hs, hp⟩
  | ended result world =>
      exact ⟨.inl (.refl _), fun _ _ _ hafter => by cases hafter⟩

/-- A turn keeps all promises, whoever takes it and for whatever reason. -/
theorem takeTurn_keeps (hg : Guaranteed jobs good mine step) (h : Sound good mine t)
    (hjobs : t.jobs = jobs) (i : Ticket) :
    Sound good mine (t.takeTurn i) ∧ Changes step (some i) t.world (t.takeTurn i).world := by
  cases hjob : t.jobs[i]? with
  | none =>
      rw [takeTurn_of_none (.inl hjob)]
      exact ⟨h, .inl (.refl _)⟩
  | some job =>
      cases hslot : t.slots[i]? with
      | none =>
          rw [takeTurn_of_none (.inr hslot)]
          exact ⟨h, .inl (.refl _)⟩
      | some slot =>
          rw [takeTurn_eq hjob hslot]
          obtain ⟨hstep, hphase⟩ := work_keeps hg h (hjobs ▸ hjob) hslot
          generalize work t.turn job t.world slot = done at hstep hphase
          obtain ⟨slot', world'⟩ := done
          have hcleared : World.Alike world' { world' with released := [] } :=
            world'.alike_timed _ _ _
          have hgood : good world' :=
            hstep.elim (fun ha => hg.good_alike ha h.good) (fun hs => hg.good_step hs h.good)
          refine ⟨⟨hg.good_alike hcleared hgood, ?_⟩, ?_⟩
          · intro k phase wait since hk
            refine hg.mine_alike hcleared ?_
            rcases getElem?_set_cases hk with ⟨rfl, rfl⟩ | ⟨-, hk⟩
            · exact hphase phase wait since rfl
            · exact hstep.elim (fun ha => hg.mine_alike ha (h.mine hk))
                (fun hs => hg.mine_step hs h.good (h.mine hk))
          · exact hstep.elim (fun ha => .inl (ha.trans hcleared))
              (fun hs => .inr ⟨i, world', rfl, hs, hcleared⟩)

/-- **Promises are kept in every order of turns.** -/
theorem Guaranteed.next (hg : Guaranteed jobs good mine step) (hjobs : t.jobs = jobs)
    (h : Sound good mine t) {label : Option Ticket} (hnext : Next label t t') :
    t'.jobs = jobs ∧ Sound good mine t' ∧ Changes step label t.world t'.world := by
  have hleft (i : Ticket) : Sound good mine (t.leaveLine i) := h.alike hg (.refl _) rfl
  cases hnext with
  | passage _ instant =>
      have hworld := t.world.alike_timed (max t.world.now instant) t.world.released t.world.agenda
      exact ⟨hjobs, h.alike hg hworld rfl, .inl hworld⟩
  | @cancellation _ c _ _ =>
      have hworld := t.world.alike_timed (max t.world.now c.instant) t.world.released
        (t.world.agenda.erase c)
      exact ⟨hjobs, h.alike hg hworld rfl, .inl hworld⟩
  | @turn _ i _ => exact ⟨by simpa [leaveLine] using hjobs, takeTurn_keeps hg (hleft i) hjobs i⟩
  | @alarm _ a _ _ =>
      exact ⟨by simpa [leaveLine] using hjobs,
        takeTurn_keeps hg (hleft a.ticket) hjobs a.ticket⟩

end

end Timeline

end BearerAuth
