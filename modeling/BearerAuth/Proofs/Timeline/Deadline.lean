import BearerAuth.Proofs.Budget
import BearerAuth.Proofs.Timeline.Inevitable

/-!
# Jobs that end in time

When the stretches of all jobs spend of a budget (`Frugal`), every move lowers what
remains (`turn_less`, `cancellation_less`), and while a job with a deadline has not ended,
time passes no further than its timer (`Pending.passTo`).  So it is inevitable that it ends
in time, whatever the others do, and when it runs alone it does so too (`Frugal.timely`).
-/

namespace BearerAuth

namespace Timeline

variable {φ ρ : Type}

/-! ## What remains to be spent -/

/-- Every stretch of every job spends of the budget, as long as the clock is moderate and
the world is good. -/
structure Frugal (budget : Budget φ) (good : World → Prop) (jobs : List (Job φ ρ)) : Prop where
  alike : ∀ {w w'}, World.Alike w w' → good w → good w'
  orderly : ∀ {w w'}, World.Orderly w w' → good w → good w'
  start : ∀ {i : Ticket} {job : Job φ ρ} {w : World}, jobs[i]? = some job → good w →
    Clock.Moderate w.now →
    (job.start w).Spends budget job.caller.deadline budget.allFetches budget.allPauses 0 w
  resume : ∀ {i : Ticket} {job : Job φ ρ} {phase : φ} {w : World}, jobs[i]? = some job →
    good w → Clock.Moderate w.now → budget.mine phase w.now →
    (job.resume phase w).Spends budget job.caller.deadline (budget.fetches phase)
      (budget.pauses w.publications phase) (budget.rank phase) w

/-- What the budget knows of a phase holds of the phases of all jobs. -/
def PhasesOf (t : Timeline φ ρ) (budget : Budget φ) : Prop :=
  ∀ (k : Ticket) (phase : φ) (wait : Transport.Wait) (since : Nat),
    t.slots[k]? = some (.waiting phase wait since) → budget.mine phase t.world.now

/-- How many fetches a job may still publish. -/
def fetchesLeft (budget : Budget φ) : Slot φ ρ → Nat
  | .idle _ => budget.allFetches
  | .waiting phase _ _ => budget.fetches phase
  | .ended _ _ => 0

/-- How many turns a job may still take before the next publication, besides those in an
exchange under way. -/
def turnsLeft (budget : Budget φ) (publications : Nat → Nat) : Slot φ ρ → Nat
  | .idle none => budget.allPauses + 2
  | .idle (some _) => budget.allPauses + 1
  | .waiting phase _ _ => budget.pauses publications phase + 1
  | .ended _ _ => 0

/-- How many turns a job may still take in an exchange under way. -/
def rankLeft (budget : Budget φ) : Slot φ ρ → Nat
  | .waiting phase _ _ => budget.rank phase
  | _ => 0

/-- What remains of a timeline: cancellations and fetches, then turns outside of exchanges and
in them, then whoever is in line.  A turn in which nothing is done lowers only the last; a
publication may give others more turns, and is therefore counted before them. -/
def remaining (budget : Budget φ) (t : Timeline φ ρ) : Nat × Nat × Nat × Nat :=
  (t.world.agenda.length + (t.slots.map (fetchesLeft budget)).sum,
    (t.slots.map (turnsLeft budget t.world.publications)).sum,
    (t.slots.map (rankLeft budget)).sum,
    t.line.length + t.world.released.length)

/-- Less remains: the first that differs is less. -/
abbrev Less : Nat × Nat × Nat × Nat → Nat × Nat × Nat × Nat → Prop :=
  Prod.Lex (· < ·) (Prod.Lex (· < ·) (Prod.Lex (· < ·) (· < ·)))

theorem less_wf : WellFounded Less :=
  (Prod.lex Nat.lt_wfRel (Prod.lex Nat.lt_wfRel (Prod.lex Nat.lt_wfRel Nat.lt_wfRel))).wf

theorem lex_of_le {α : Type} {r : α → α → Prop} {m n : Nat} {a b : α} (hle : m ≤ n)
    (h : r a b) : Prod.Lex (· < ·) r (m, a) (n, b) := by
  rcases Nat.lt_or_eq_of_le hle with hlt | rfl
  · exact .left _ _ hlt
  · exact .right _ h

/-- A job has a fetch less to publish, or a turn less to take. -/
def Lowers (budget : Budget φ) (w w' : World) (slot slot' : Slot φ ρ) : Prop :=
  fetchesLeft budget slot' < fetchesLeft budget slot ∨
    w'.publications = w.publications ∧ fetchesLeft budget slot' ≤ fetchesLeft budget slot ∧
      (turnsLeft budget w'.publications slot' < turnsLeft budget w.publications slot ∨
        turnsLeft budget w'.publications slot' ≤ turnsLeft budget w.publications slot ∧
          rankLeft budget slot' < rankLeft budget slot)

theorem length_join_le (line more : List Ticket) :
    (join line more).length ≤ line.length + more.length := by
  induction more generalizing line with
  | nil => exact Nat.le_refl _
  | cons ticket rest ih =>
      rw [join]
      refine Nat.le_trans (ih _) ?_
      split
      · simp only [List.length_cons]
        omega
      · simp only [List.length_append, List.length_cons, List.length_nil]
        omega

section

variable {budget : Budget φ} {good : World → Prop} {jobs : List (Job φ ρ)} {job : Job φ ρ}
  {slot : Slot φ ρ} {w : World} {t : Timeline φ ρ} {i j : Ticket}

/-- What a job does in a turn: nothing yet, nothing any more, or a stretch of work. -/
inductive Worked (budget : Budget φ) (turn : Nat) (job : Job φ ρ) (w : World) :
    Slot φ ρ → Slot φ ρ × World → Prop
  | early {since : Option Nat} : w.now < job.begins →
      Worked budget turn job w (.idle since) (.idle (some turn), w)
  | idle {result : ρ} {world : World} :
      Worked budget turn job w (.ended result world) (.ended result world, w)
  | stretch {slot : Slot φ ρ} {fetches pauses rank : Nat} {stretch : Stretch φ ρ} :
      stretch.Spends budget job.caller.deadline fetches pauses rank w →
      fetches = fetchesLeft budget slot → pauses < turnsLeft budget w.publications slot →
      rank = rankLeft budget slot →
      Worked budget turn job w slot (.after turn stretch, stretch.2)

theorem work_worked (hfrugal : Frugal budget good jobs) (hjob : jobs[i]? = some job)
    (hgood : good w) (hnow : Clock.Moderate w.now) (slot : Slot φ ρ)
    (hmine : ∀ phase wait since, slot = .waiting phase wait since → budget.mine phase w.now)
    (turn : Nat) : Worked budget turn job w slot (work turn job w slot) := by
  cases slot with
  | idle since =>
      simp only [work]
      split
      · next hearly => exact .early hearly
      · refine .stretch (hfrugal.start hjob hgood hnow) rfl ?_ rfl
        cases since with
        | none => exact Nat.lt_add_of_pos_right (by decide)
        | some since => exact Nat.lt_succ_self _
  | waiting phase wait since =>
      exact .stretch (hfrugal.resume hjob hgood hnow (hmine phase wait since rfl)) rfl
        (Nat.lt_succ_self _) rfl
  | ended result world => exact .idle

theorem lowers_of_spends {fetches pauses rank : Nat} {deadline : Option Instant}
    {stretch : Stretch φ ρ} (h : stretch.Spends budget deadline fetches pauses rank w)
    (hfetches : fetches = fetchesLeft budget slot)
    (hpauses : pauses < turnsLeft budget w.publications slot)
    (hrank : rank = rankLeft budget slot) (turn : Nat) :
    Lowers budget w stretch.2 slot (.after turn stretch) := by
  obtain ⟨progress, w'⟩ := stretch
  obtain ⟨-, hspent⟩ := h
  cases progress with
  | done result =>
      rcases hspent with hsame | hpos
      · exact .inr ⟨hsame, Nat.zero_le _, .inl (Nat.lt_of_le_of_lt (Nat.zero_le _) hpauses)⟩
      · exact .inl (hfetches ▸ hpos)
  | paused phase wait =>
      obtain ⟨-, -, hspent⟩ := hspent
      rcases hspent with hlt | ⟨hsame, hle, hspent⟩
      · exact .inl (hfetches ▸ hlt)
      · refine .inr ⟨hsame, hfetches ▸ hle, ?_⟩
        rw [show World.publications w' = w.publications from hsame]
        show budget.pauses w.publications phase + 1 < _ ∨
          budget.pauses w.publications phase + 1 ≤ _ ∧ budget.rank phase < _
        rw [← hrank]
        rcases hspent with hlt | ⟨hle', hlt⟩
        · exact .inl (by omega)
        · exact .inr ⟨by omega, hlt⟩

theorem less_of_lowers (job : Job φ ρ) (slot' : Slot φ ρ) {w' : World}
    (hslot : t.slots[j]? = some slot) (hagenda : w'.agenda = t.world.agenda)
    (h : Lowers budget t.world w' slot slot') :
    Less (remaining budget (t.turned j job slot' w')) (remaining budget t) := by
  have hfetches := @sum_map_set _ t.slots j slot slot' (fetchesLeft budget) hslot
  have hturns :=
    @sum_map_set _ t.slots j slot slot' (turnsLeft budget t.world.publications) hslot
  have hranks := @sum_map_set _ t.slots j slot slot' (rankLeft budget) hslot
  show Less (w'.agenda.length + ((t.slots.set j slot').map (fetchesLeft budget)).sum,
    ((t.slots.set j slot').map (turnsLeft budget w'.publications)).sum,
    ((t.slots.set j slot').map (rankLeft budget)).sum, _) _
  rw [hagenda, remaining]
  rcases h with hlt | ⟨hsame, hle, hrest⟩
  · exact .left _ _ (by omega)
  · rw [hsame] at hrest ⊢
    refine lex_of_le (by omega) ?_
    rcases hrest with hlt | ⟨hle', hlt⟩
    · exact .left _ _ (by omega)
    · exact lex_of_le (by omega) (.left _ _ (by omega))

theorem less_of_line (job : Job φ ρ) (slot' : Slot φ ρ) (hslot : t.slots[j]? = some slot)
    (hfetches : fetchesLeft budget slot' = fetchesLeft budget slot)
    (hturns : ∀ publications, turnsLeft budget publications slot' =
      turnsLeft budget publications slot)
    (hrank : rankLeft budget slot' = rankLeft budget slot)
    (hheeds : slot'.heedsCancellation = false) (hline : j ∈ t.line) :
    Less (remaining budget (t.turned j job slot' t.world)) (remaining budget t) := by
  have hsum := @sum_map_set _ t.slots j slot slot' (fetchesLeft budget) hslot
  have hsum' := @sum_map_set _ t.slots j slot slot' (turnsLeft budget t.world.publications) hslot
  have hsum'' := @sum_map_set _ t.slots j slot slot' (rankLeft budget) hslot
  have hsummoned : summoned j job slot' t.world = t.world.released := by
    simp [summoned, hheeds]
  have hjoin := length_join_le (t.line.erase j) t.world.released
  have herase := List.length_erase_of_mem hline
  have hpos := List.length_pos_of_mem hline
  rw [hturns] at hsum'
  show Less (t.world.agenda.length + ((t.slots.set j slot').map (fetchesLeft budget)).sum,
    ((t.slots.set j slot').map (turnsLeft budget t.world.publications)).sum,
    ((t.slots.set j slot').map (rankLeft budget)).sum,
    (join (t.line.erase j) (summoned j job slot' t.world)).length) _
  rw [hsummoned, remaining]
  exact lex_of_le (by omega) (lex_of_le (by omega) (lex_of_le (by omega) (by omega)))

theorem turn_less (hfrugal : Frugal budget good jobs) (hjobs : t.jobs = jobs)
    (hgood : good t.world) (hnow : Clock.Moderate t.world.now)
    (hphases : t.PhasesOf budget) {t' : Timeline φ ρ} (hturned : Turned t j t') :
    Less (remaining budget t') (remaining budget t) := by
  cases hturned with
  | nobody _ hline =>
      have herase := List.length_erase_of_mem hline
      have hpos := List.length_pos_of_mem hline
      refine .right _ (.right _ (.right _ ?_))
      show (t.line.erase j).length + t.world.released.length <
        t.line.length + t.world.released.length
      omega
  | @somebody job slot slot' w' hjob hslot hcalled hwork =>
      have hworked := work_worked hfrugal (hjobs ▸ hjob) hgood hnow slot
        (fun phase wait since heq => hphases j phase wait since (heq ▸ hslot)) t.turn
      rw [hwork] at hworked
      cases hworked with
      | @early since hearly =>
          cases since with
          | none =>
              refine less_of_lowers job (.idle (some t.turn)) hslot rfl
                (.inr ⟨rfl, Nat.le_refl _, .inl ?_⟩)
              exact Nat.lt_succ_self _
          -- The timer for its beginning has not gone off, so the job is in line.
          | some since =>
              refine less_of_line job (.idle (some t.turn)) hslot rfl (fun _ => rfl) rfl rfl ?_
              rcases hcalled with hline | ⟨a, halarm, hdue⟩
              · exact hline
              · obtain rfl := Option.some.inj halarm
                exact absurd hdue (Int.not_le.mpr hearly)
      | idle =>
          refine less_of_line job _ hslot rfl (fun _ => rfl) rfl rfl ?_
          rcases hcalled with hline | ⟨a, halarm, -⟩
          · exact hline
          · cases halarm
      | stretch hspends hfetches hpauses hrank =>
          exact less_of_lowers job _ hslot hspends.1.agenda
            (lowers_of_spends hspends hfetches hpauses hrank t.turn)

theorem cancellation_less {c : Cancellation} (hc : c ∈ t.world.agenda) :
    Less (remaining budget (t.cancel c)) (remaining budget t) := by
  have herase := List.length_erase_of_mem hc
  have hpos := List.length_pos_of_mem hc
  refine .left _ _ ?_
  show (t.world.agenda.erase c).length + (t.slots.map (fetchesLeft budget)).sum <
    t.world.agenda.length + (t.slots.map (fetchesLeft budget)).sum
  omega

end

/-! ## Jobs with a deadline -/

/-- The job at a place has ended by an instant. -/
def EndedBy (i : Ticket) (bound : Instant) (t : Timeline φ ρ) : Prop :=
  ∃ result world, t.slots[i]? = some (.ended result world) ∧ world.now ≤ bound

/-- It is inevitable that the job at a place ends by an instant; in a run it has ended after
enough steps. -/
structure EndsBy (start : Timeline φ ρ) (i : Ticket) (bound : Instant) : Prop where
  inevitable : Inevitable (EndedBy i bound) start
  run : ∃ fuel, ∀ more, fuel ≤ more → EndedBy i bound (start.run more)

theorem EndedBy.reaches {i : Ticket} {bound : Instant} {t t' : Timeline φ ρ}
    (h : EndedBy i bound t) (hreaches : Reaches t t') : EndedBy i bound t' := by
  refine hreaches.invariant h ?_
  rintro label t t' ⟨result, world, hslot, hnow⟩ hnext
  exact ⟨result, world, hnext.ended hslot, hnow⟩

theorem endsBy_of_inevitable {start : Timeline φ ρ} {i : Ticket} {bound : Instant}
    (h : Inevitable (EndedBy i bound) start) : EndsBy start i bound := by
  obtain ⟨fuel, hfuel⟩ := h.run
  refine ⟨h, fuel, ?_⟩
  intro more hle
  obtain ⟨rest, rfl⟩ := Nat.exists_eq_add_of_le hle
  rw [run_add]
  exact hfuel.reaches (run_reaches rest _)

/-- A job that has to be over by an instant: neither its beginning nor its deadline is
later. -/
structure Bounded (job : Job φ ρ) (bound : Instant) : Prop where
  begins : job.begins ≤ bound
  deadline : ∃ instant, job.caller.deadline = some instant ∧ instant ≤ bound
  moderate : bound < 2 ^ 61

/-- The next turn of a job comes in time: it is in line, or has a timer that goes off. -/
def Due (bound : Instant) (line : List Ticket) (i : Ticket) : Slot φ ρ → Prop
  | .idle none => i ∈ line
  | .idle (some _) => True
  | .waiting _ wait _ => ∃ timer, wait.timer = some timer ∧ timer ≤ bound
  | .ended _ _ => False

/-- It is not too late for a job that has to be over by an instant. -/
structure Pending (budget : Budget φ) (good : World → Prop) (jobs : List (Job φ ρ)) (i : Ticket)
    (bound : Instant) (t : Timeline φ ρ) : Prop where
  jobs : t.jobs = jobs
  good : good t.world
  low : -(2 ^ 61) < t.world.now
  now : t.world.now ≤ bound
  phases : t.PhasesOf budget
  due : ∃ slot, t.slots[i]? = some slot ∧ Due bound t.line i slot

section

variable {budget : Budget φ} {good : World → Prop} {jobs : List (Job φ ρ)} {job : Job φ ρ}
  {bound : Instant} {t t' : Timeline φ ρ} {i j : Ticket}

theorem Pending.moderate (h : Pending budget good jobs i bound t) (hbounded : Bounded job bound) :
    Clock.Moderate t.world.now :=
  ⟨h.low, Int.lt_of_le_of_lt h.now hbounded.moderate⟩

theorem Pending.alarm (h : Pending budget good jobs i bound t) (hjob : jobs[i]? = some job)
    (hbounded : Bounded job bound) (hline : t.line = []) :
    ∃ a ∈ alarmsFrom 0 t.jobs t.slots, a.instant ≤ bound := by
  obtain ⟨slot, hslot, hdue⟩ := h.due
  rw [← h.jobs] at hjob
  have hfrom {a : Alarm} (ha : alarm? i job slot = some a) :
      a ∈ alarmsFrom 0 t.jobs t.slots := by
    refine mem_alarmsFrom.mpr ⟨i, job, slot, hjob, hslot, ?_⟩
    rw [Nat.zero_add]
    exact ha
  cases slot with
  | idle since =>
      cases since with
      | none =>
          rw [Due, hline] at hdue
          cases hdue
      | some since => exact ⟨_, hfrom rfl, hbounded.begins⟩
  | waiting phase wait since =>
      obtain ⟨timer, htimer, hle⟩ := hdue
      refine ⟨⟨timer, since, i⟩, hfrom ?_, hle⟩
      rw [alarm?, htimer]
      rfl
  | ended result world => exact absurd hdue id

theorem Pending.step (h : Pending budget good jobs i bound t) (hjob : jobs[i]? = some job)
    (hbounded : Bounded job bound) : ∃ t', t.step? = some t' := by
  cases hbrief : t.brief? with
  | some a => exact ⟨_, step?_brief hbrief⟩
  | none =>
      cases hline : t.line with
      | cons k rest => exact ⟨_, step?_head hbrief hline⟩
      | nil =>
          obtain ⟨a, ha, -⟩ := h.alarm hjob hbounded hline
          obtain ⟨event, hevent⟩ := exists_event ha
          refine ⟨t.happen event, ?_⟩
          rw [step?_event hbrief hline, hevent]
          rfl

theorem Pending.passTo (h : Pending budget good jobs i bound t)
    (hfrugal : Frugal budget good jobs) (hjob : jobs[i]? = some job)
    (hbounded : Bounded job bound) {instant : Instant} (hpass : t.MayPass instant) :
    Pending budget good jobs i bound (t.passTo instant) where
  jobs := h.jobs
  good := hfrugal.alike (t.world.alike_timed _ _ _) h.good
  low := Int.lt_of_lt_of_le h.low (Int.le_max_left _ _)
  now := by
    refine Int.max_le.mpr ⟨h.now, ?_⟩
    rcases Int.lt_or_le t.world.now instant with hlt | hle
    · obtain ⟨hline, halarms, -⟩ := hpass hlt
      obtain ⟨a, ha, hbound⟩ := h.alarm hjob hbounded hline
      exact Int.le_trans (halarms a ha) hbound
    · exact Int.le_trans hle h.now
  phases k phase wait since hslot :=
    budget.later (h.phases k phase wait since hslot) (Int.le_max_left _ _)
  due := h.due

theorem Pending.cancel (h : Pending budget good jobs i bound t)
    (hfrugal : Frugal budget good jobs) {c : Cancellation} (hc : c.instant ≤ t.world.now) :
    Pending budget good jobs i bound (t.cancel c) where
  jobs := h.jobs
  good := hfrugal.alike (t.world.alike_timed _ _ _) h.good
  low := Int.lt_of_lt_of_le h.low (Int.le_max_left _ _)
  now := Int.max_le.mpr ⟨h.now, Int.le_trans hc h.now⟩
  phases k phase wait since hslot :=
    budget.later (h.phases k phase wait since hslot) (Int.le_max_left _ _)
  due := by
    obtain ⟨slot, hslot, hdue⟩ := h.due
    refine ⟨slot, hslot, ?_⟩
    cases slot with
    | idle since =>
        cases since with
        | none =>
            show i ∈ (if _ then join t.line [c.ticket] else t.line)
            split
            · exact mem_join.mpr (.inl hdue)
            · exact hdue
        | some since => trivial
    | waiting phase wait since => exact hdue
    | ended result world => exact hdue

theorem Due.other {line more : List Ticket} {slot : Slot φ ρ} (h : Due bound line i slot)
    (hne : j ≠ i) : Due bound (join (line.erase j) more) i slot := by
  cases slot with
  | idle since =>
      cases since with
      | none => exact mem_join.mpr (.inl ((List.mem_erase_of_ne hne.symm).mpr h))
      | some since => trivial
  | waiting phase wait since => exact h
  | ended result world => exact h

/-- A turn of a job itself ends it, or leaves it with a timer that goes off in time. -/
theorem Worked.due {turn : Nat} {w w' : World} {slot slot' : Slot φ ρ} {line : List Ticket}
    (h : Worked budget turn job w slot (slot', w')) (hdue : Due bound line i slot)
    (hbounded : Bounded job bound) (hnow : w.now ≤ bound) (line' : List Ticket) :
    (∃ result world, slot' = .ended result world ∧ world.now ≤ bound) ∨
      Due bound line' i slot' := by
  cases h with
  | early hearly => exact .inr trivial
  | idle => exact absurd hdue id
  | @stretch _ _ _ _ stretch hspends _ _ _ =>
      obtain ⟨progress, w'⟩ := stretch
      obtain ⟨horderly, hspent⟩ := hspends
      cases progress with
      | done result => exact .inl ⟨result, w', rfl, horderly.now ▸ hnow⟩
      | paused phase wait =>
          obtain ⟨-, hpunctual, -⟩ := hspent
          obtain ⟨instant, hinstant, hle⟩ := hbounded.deadline
          obtain ⟨timer, htimer, hmax⟩ := hpunctual instant hinstant
          exact .inr ⟨timer, htimer, Int.le_trans hmax (Int.max_le.mpr ⟨hnow, hle⟩)⟩

theorem Worked.orderly {turn : Nat} {w w' : World} {slot slot' : Slot φ ρ}
    (h : Worked budget turn job w slot (slot', w')) : World.Orderly w w' := by
  cases h with
  | early => exact .refl _
  | idle => exact .refl _
  | stretch hspends => exact hspends.1

theorem Worked.phase {turn since : Nat} {w w' : World} {slot : Slot φ ρ} {phase : φ}
    {wait : Transport.Wait}
    (h : Worked budget turn job w slot (.waiting phase wait since, w')) :
    budget.mine phase w.now := by
  generalize hafter : ((.waiting phase wait since, w') : Slot φ ρ × World) = after at h
  cases h with
  | early => cases hafter
  | idle => cases hafter
  | @stretch _ _ _ _ stretch hspends _ _ _ =>
      obtain ⟨progress, w''⟩ := stretch
      cases progress with
      | done result => cases hafter
      | paused phase' wait' =>
          cases hafter
          exact hspends.2.1

/-- It is not too late after a turn in which a job has worked, when its next turn, or that of
the job that has to end, comes in time. -/
theorem Pending.turned (h : Pending budget good jobs i bound t)
    (hfrugal : Frugal budget good jobs) {slot slot' : Slot φ ρ} {w' : World}
    (hworked : Worked budget t.turn job t.world slot (slot', w'))
    (hdue : ∃ slot, (t.turned j job slot' w').slots[i]? = some slot ∧
      Due bound (t.turned j job slot' w').line i slot) :
    Pending budget good jobs i bound (t.turned j job slot' w') where
  jobs := h.jobs
  good := hfrugal.alike (w'.alike_timed _ _ _) (hfrugal.orderly hworked.orderly h.good)
  low := hworked.orderly.now.symm ▸ h.low
  now := hworked.orderly.now.symm ▸ h.now
  phases := by
    intro k phase wait since hk
    show budget.mine phase w'.now
    rw [hworked.orderly.now]
    rcases getElem?_set_cases hk with ⟨rfl, rfl⟩ | ⟨-, hk⟩
    · exact hworked.phase
    · exact h.phases k phase wait since hk
  due := hdue

/-- Whoever takes a turn, the job has ended in time or it is not too late for it. -/
theorem Pending.turn (h : Pending budget good jobs i bound t) (hfrugal : Frugal budget good jobs)
    (hjob : jobs[i]? = some job) (hbounded : Bounded job bound) (hturned : Turned t j t') :
    EndedBy i bound t' ∨ Pending budget good jobs i bound t' := by
  obtain ⟨slot, hslot, hdue⟩ := h.due
  rw [← h.jobs] at hjob
  cases hturned with
  | nobody hnone _ =>
      have hne : j ≠ i := by
        rintro rfl
        exact not_none_or hjob hslot hnone
      have hdue' : Due bound (join (t.line.erase j) []) i slot := hdue.other hne
      exact .inr ⟨h.jobs, h.good, h.low, h.now, h.phases, slot, hslot, hdue'⟩
  | @somebody job' slot₁ slot' w' hjob' hslot₁ _ hwork =>
      have hworked := work_worked hfrugal (h.jobs ▸ hjob') h.good (h.moderate hbounded) slot₁
        (fun phase wait since heq => h.phases j phase wait since (heq ▸ hslot₁)) t.turn
      rw [hwork] at hworked
      by_cases heq : j = i
      · subst heq
        obtain rfl := Option.some.inj (hjob.symm.trans hjob')
        obtain rfl := Option.some.inj (hslot.symm.trans hslot₁)
        have hset : (t.slots.set j slot')[j]? = some slot' := by
          rw [List.getElem?_set_self (List.getElem?_eq_some_iff.mp hslot).1]
        rcases hworked.due hdue hbounded h.now (t.turned j job slot' w').line with
          ⟨result, world, rfl, hend⟩ | hdue'
        · exact .inl ⟨result, world, hset, hend⟩
        · exact .inr (h.turned hfrugal hworked ⟨slot', hset, hdue'⟩)
      · refine .inr (h.turned hfrugal hworked ⟨slot, ?_, hdue.other heq⟩)
        show (t.slots.set j slot')[i]? = some slot
        rw [List.getElem?_set_ne heq]
        exact hslot

/-- **A job with a deadline ends in time**, whatever moves are made. -/
theorem Pending.inevitable (h : Pending budget good jobs i bound t)
    (hfrugal : Frugal budget good jobs) (hjob : jobs[i]? = some job)
    (hbounded : Bounded job bound) : Inevitable (EndedBy i bound) t := by
  refine inevitable_of_measure less_wf (I := Pending budget good jobs i bound)
    (remaining budget) (fun hI => hI.step hjob hbounded) ?_ h
  intro t t' hI hmove
  cases hmove with
  | turn hpass hnext =>
      have hpassed := hI.passTo hfrugal hjob hbounded hpass
      rcases hpassed.turn hfrugal hjob hbounded hnext.turned with hend | hpending
      · exact .inl hend
      · exact .inr ⟨hpending, turn_less hfrugal hpassed.jobs hpassed.good
          (hpassed.moderate hbounded) hpassed.phases hnext.turned⟩
  | cancellation hpass hc hdue =>
      have hpassed := hI.passTo hfrugal hjob hbounded hpass
      exact .inr ⟨hpassed.cancel hfrugal hdue, cancellation_less hc⟩

/-- Jobs that begin on one timeline: one that has a deadline ends by it. -/
theorem endsBy_deadline {world : World} (hfrugal : Frugal budget good jobs) (hgood : good world)
    (hlow : -(2 ^ 61) < world.now) (hnow : world.now ≤ bound) (hjob : jobs[i]? = some job)
    (hbounded : Bounded job bound) : EndsBy (ofJobs world jobs) i bound := by
  refine endsBy_of_inevitable (Pending.inevitable ?_ hfrugal hjob hbounded)
  have hlt := (List.getElem?_eq_some_iff.mp hjob).1
  refine ⟨rfl, hfrugal.alike (world.alike_timed _ _ _) hgood, hlow, hnow, ?_, .idle none, ?_, ?_⟩
  · intro k phase wait since hk
    cases (ofJobs_slots_iff.mp hk).1
  · show (jobs.map fun _ => Slot.idle none)[i]? = _
    rw [List.getElem?_map, hjob]
    rfl
  · exact List.mem_range.mpr hlt

theorem ends_of_timer {wait : Transport.Wait} {timer : Instant} (h : wait.timer = some timer) :
    ∃ instant, wait.ends = some instant ∧ instant ≤ timer := by
  rw [Transport.Wait.ends, h]
  cases wait.cancel with
  | none => exact ⟨timer, rfl, Int.le_refl _⟩
  | some cancel => exact ⟨min timer cancel, rfl, Int.min_le_left _ _⟩

/-- A stretch of a job with a deadline, when nobody else is about: the job ends in time. -/
theorem ends_of_spends (hfrugal : Frugal budget good jobs) (hjob : jobs[i]? = some job)
    {deadline : Instant} (hdeadline : job.caller.deadline = some deadline)
    (hle : deadline ≤ bound) (hbound : bound < 2 ^ 61) (left : Nat × Nat × Nat)
    {stretch : Stretch φ ρ} {w : World}
    (h : stretch.Spends budget job.caller.deadline left.1 left.2.1 left.2.2 w) (hgood : good w)
    (hlow : -(2 ^ 61) < w.now) (hnow : w.now ≤ bound) :
    ∃ result w', Stretch.Ends job.resume stretch result w' ∧ w'.now ≤ bound := by
  -- The induction is on what may still be spent: fetches, then pauses, then the exchange.
  have hwf := (Prod.lex Nat.lt_wfRel (Prod.lex Nat.lt_wfRel Nat.lt_wfRel)).wf
  induction left using hwf.induction generalizing stretch w with
  | h left ih =>
      obtain ⟨progress, w₁⟩ := stretch
      obtain ⟨horderly, hspent⟩ := h
      have hnow₁ : w₁.now = w.now := horderly.now
      cases progress with
      | done result => exact ⟨result, w₁, Stretch.ends_done, hnow₁ ▸ hnow⟩
      | paused phase wait =>
          obtain ⟨hmine, hpunctual, hspent⟩ := hspent
          obtain ⟨timer, htimer, hmax⟩ := hpunctual deadline hdeadline
          obtain ⟨instant, hends, hearly⟩ := ends_of_timer htimer
          have hlater : w.now ≤ (w₁.advanceTo instant).now := hnow₁ ▸ Int.le_max_left _ _
          have hnow' : (w₁.advanceTo instant).now ≤ bound := by
            refine Int.max_le.mpr ⟨hnow₁ ▸ hnow, Int.le_trans hearly ?_⟩
            exact Int.le_trans hmax (Int.max_le.mpr ⟨hnow, hle⟩)
          have hlow' := Int.lt_of_lt_of_le hlow hlater
          have hgood' : good (w₁.advanceTo instant) :=
            hfrugal.alike (w₁.alike_timed _ _ _) (hfrugal.orderly horderly hgood)
          have hrest := hfrugal.resume hjob hgood' ⟨hlow', Int.lt_of_le_of_lt hnow' hbound⟩
            (budget.later hmine hlater)
          have hless : Prod.Lex (· < ·) (Prod.Lex (· < ·) (· < ·))
              (budget.fetches phase, budget.pauses w₁.publications phase, budget.rank phase)
              left := by
            obtain ⟨fetches, pauses, rank⟩ := left
            rcases hspent with hlt | ⟨hsame, hle', hspent⟩
            · exact .left _ _ hlt
            · rw [show w₁.publications = w.publications from hsame]
              refine lex_of_le hle' ?_
              rcases hspent with hlt | ⟨hle'', hlt⟩
              · exact .left _ _ hlt
              · exact lex_of_le hle'' hlt
          obtain ⟨result, w', hend, hin⟩ := ih _ hless hrest hgood' hlow' hnow'
          exact ⟨result, w', hend.paused hends, hin⟩

/-- Jobs that end by their deadlines, or at their own beginnings when these are later, as long
as they begin in good worlds and the clock is moderate until then. -/
structure Timely (jobs : List (Job φ ρ)) (good : World → Prop) : Prop where
  /-- All on one timeline, some perhaps without a deadline. -/
  together : ∀ {world : World} {i : Ticket} {job : Job φ ρ} {deadline : Instant}, good world →
    -(2 ^ 61) < world.now → jobs[i]? = some job → job.caller.deadline = some deadline →
    max (max world.now job.begins) deadline < 2 ^ 61 →
    EndsBy (ofJobs world jobs) i (max (max world.now job.begins) deadline)
  /-- Each for itself, with nobody else about. -/
  alone : ∀ {world : World} {i : Ticket} {job : Job φ ρ} {deadline : Instant}, good world →
    -(2 ^ 61) < world.now → jobs[i]? = some job → job.caller.deadline = some deadline →
    max world.now deadline < 2 ^ 61 →
    ∃ result w', Stretch.Ends job.resume (job.start world) result w' ∧
      w'.now ≤ max world.now deadline

/-- **Jobs that spend of a budget end by their deadlines.** -/
theorem Frugal.timely (hfrugal : Frugal budget good jobs) : Timely jobs good where
  together := by
    intro world i job deadline hgood hlow hjob hdeadline hbound
    refine endsBy_deadline hfrugal hgood hlow ?_ hjob
      ⟨?_, ⟨deadline, hdeadline, Int.le_max_right _ _⟩, hbound⟩
    · exact Int.le_trans (Int.le_max_left _ _) (Int.le_max_left _ _)
    · exact Int.le_trans (Int.le_max_right _ _) (Int.le_max_left _ _)
  alone := by
    intro world i job deadline hgood hlow hjob hdeadline hbound
    have hmoderate : Clock.Moderate world.now :=
      ⟨hlow, Int.lt_of_le_of_lt (Int.le_max_left _ _) hbound⟩
    exact ends_of_spends hfrugal hjob hdeadline (Int.le_max_right _ _) hbound
      (budget.allFetches, budget.allPauses, 0) (hfrugal.start hjob hgood hmoderate) hgood hlow
      (Int.le_max_left _ _)

end

end Timeline

end BearerAuth
