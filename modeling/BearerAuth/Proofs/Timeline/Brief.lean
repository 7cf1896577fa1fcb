import BearerAuth.Proofs.Timeline.Step
import BearerAuth.Transport.Wire

/-!
# Brief pauses

Work that lets others come in between pauses briefly: its pause is over when it begins
(`Stretch.Brisk`).  `Timeline.step?` gives the next turn to whoever does, so on a run at most one
job pauses briefly at a time, and nobody else has a turn before that one (`OneBrief.step`).
-/

namespace BearerAuth

open Timeline

namespace Stretch

variable {φ ψ ρ τ : Type} {stretch : Stretch φ ρ}

/-- A brief pause is over when it begins. -/
def Brisk (stretch : Stretch φ ρ) : Prop :=
  ∀ phase wait, stretch.1 = .paused phase wait → wait.brief = true →
    wait.timer = some stretch.2.now

theorem brisk_done (result : ρ) (w : World) : Brisk ((.done result, w) : Stretch φ ρ) :=
  nofun

theorem brisk_yield (phase : φ) (w : World) : Brisk (.yield phase w : Stretch φ ρ) := by
  rintro phase wait ⟨⟩ -
  rfl

theorem brisk_paused (phase : φ) {wait : Transport.Wait} (w : World) (h : wait.brief = false) :
    Brisk ((.paused phase wait, w) : Stretch φ ρ) := by
  rintro phase wait' ⟨⟩ hbrief
  cases h.symm.trans hbrief

theorem Brisk.andThen (h : stretch.Brisk) {within : φ → ψ} {next : ρ → World → Stretch ψ τ}
    (hnext : ∀ result w, (next result w).Brisk) : (stretch.andThen within next).Brisk := by
  obtain ⟨progress, w⟩ := stretch
  cases progress with
  | done result => exact hnext result w
  | paused phase wait =>
      rintro phase' wait' ⟨⟩ hbrief
      exact h phase wait rfl hbrief

end Stretch

structure Job.Brisk {φ ρ : Type} (job : Job φ ρ) : Prop where
  start : ∀ w, (job.start w).Brisk
  resume : ∀ phase w, (job.resume phase w).Brisk

structure Transport.Brisk (base : Transport) : Prop where
  start : ∀ caller url request w, (base.start caller url request w).Brisk
  resume : ∀ caller phase w, (base.resume caller phase w).Brisk

theorem Transport.wire_brisk (peer : Transport.Peer) : (Transport.wire peer).Brisk where
  start caller url request w := by
    simp only [Transport.wire]
    split
    · exact Stretch.brisk_done _ _
    · rw [Transport.Wire.deliver]
      split
      · exact Stretch.brisk_done _ _
      · split
        · exact Stretch.brisk_done _ _
        · split
          · exact Stretch.brisk_done _ _
          · exact Stretch.brisk_paused _ _ rfl
  resume caller reply w := Stretch.brisk_done _ _

namespace Timeline

variable {φ ρ : Type} {t t' : Timeline φ ρ} {i k : Ticket}

def PausesBriefly (t : Timeline φ ρ) (k : Ticket) : Prop :=
  ∃ phase wait since, t.slots[k]? = some (.waiting phase wait since) ∧ wait.brief = true

/-- At most one job pauses briefly, and its pause is over. -/
structure OneBrief (t : Timeline φ ρ) : Prop where
  due : ∀ {k : Ticket} {phase : φ} {wait : Transport.Wait} {since : Nat},
    t.slots[k]? = some (.waiting phase wait since) → wait.brief = true →
    ∃ instant, wait.timer = some instant ∧ instant ≤ t.world.now
  once : ∀ {k l : Ticket}, t.PausesBriefly k → t.PausesBriefly l → k = l

theorem oneBrief_ofJobs (world : World) (jobs : List (Job φ ρ)) (ties : Ties) :
    OneBrief (ofJobs world jobs ties) where
  due h := nomatch (ofJobs_slots_iff.mp h).1
  once := by
    rintro k l ⟨_, _, _, hslot, -⟩ -
    cases (ofJobs_slots_iff.mp hslot).1

theorem OneBrief.keep (h : OneBrief t) (hslots : t'.slots = t.slots)
    (hnow : t.world.now ≤ t'.world.now) : OneBrief t' where
  due hslot hbrief := by
    obtain ⟨instant, htimer, hle⟩ := h.due (hslots ▸ hslot) hbrief
    exact ⟨instant, htimer, Int.le_trans hle hnow⟩
  once := by
    rintro k l ⟨phase, wait, since, hk, hbrief⟩ ⟨phase', wait', since', hl, hbrief'⟩
    exact h.once ⟨phase, wait, since, hslots ▸ hk, hbrief⟩
      ⟨phase', wait', since', hslots ▸ hl, hbrief'⟩

theorem OneBrief.pass (h : OneBrief t) (hnext : Next none t t') : OneBrief t' := by
  cases hnext with
  | passage => exact h.keep rfl (Int.le_max_left _ _)
  | cancellation => exact h.keep rfl (Int.le_max_left _ _)

theorem pausesBriefly_of_brief? {a : Alarm} (h : t.brief? = some a) : t.PausesBriefly a.ticket := by
  have hfound := List.find?_some h
  rw [Bool.and_eq_true, Option.any_eq_true] at hfound
  obtain ⟨⟨slot, hslot, hbrief⟩, -⟩ := hfound
  cases slot with
  | idle since => cases hbrief
  | waiting phase wait since => exact ⟨phase, wait, since, hslot, hbrief⟩
  | ended result world => cases hbrief

theorem OneBrief.next (h : OneBrief t) (hjobs : t.jobs.length = t.slots.length)
    (hk : t.PausesBriefly k) : ∃ a, t.brief? = some a ∧ a.ticket = k := by
  obtain ⟨phase, wait, since, hslot, hbrief⟩ := hk
  obtain ⟨instant, htimer, hle⟩ := h.due hslot hbrief
  have hlt : k < t.jobs.length := hjobs ▸ (List.getElem?_eq_some_iff.mp hslot).1
  have hmem : (⟨instant, since, k⟩ : Alarm) ∈ alarmsFrom 0 t.jobs t.slots := by
    refine mem_alarms.mpr ⟨_, _, List.getElem?_eq_getElem hlt, hslot, ?_⟩
    rw [alarm?, htimer]
    rfl
  cases hfound : t.brief? with
  | none =>
      have hnot := List.find?_eq_none.mp hfound _ hmem
      simp [hslot, Slot.isBrief, hbrief, hle] at hnot
  | some a =>
      exact ⟨a, rfl, h.once (pausesBriefly_of_brief? hfound) ⟨phase, wait, since, hslot, hbrief⟩⟩

theorem work_brisk {job : Job φ ρ} (h : job.Brisk) {turn : Nat} {w w' : World}
    {slot : Slot φ ρ} {phase : φ} {wait : Transport.Wait} {since : Nat}
    (hwork : work turn job w slot = (.waiting phase wait since, w')) (hbrief : wait.brief = true) :
    wait.timer = some w'.now := by
  have hafter {stretch : Stretch φ ρ} (hbrisk : stretch.Brisk)
      (heq : (Slot.after turn stretch, stretch.2) = (.waiting phase wait since, w')) :
      wait.timer = some w'.now := by
    obtain ⟨progress, w₁⟩ := stretch
    cases progress with
    | done result => cases heq
    | paused phase' wait' =>
        cases heq
        exact hbrisk phase wait rfl hbrief
  cases slot with
  | idle since' =>
      by_cases hearly : w.now < job.begins
      · rw [work_early hearly] at hwork
        cases hwork
      · rw [work_begin hearly] at hwork
        exact hafter (h.start w) hwork
  | waiting phase' wait' since' => exact hafter (h.resume phase' w) hwork
  | ended result world => cases hwork

/-- After a turn of the only one who may pause briefly again nobody else does. -/
theorem OneBrief.turn (h : OneBrief t) (hjobs : ∀ job ∈ t.jobs, job.Brisk)
    (honly : ∀ k, t.PausesBriefly k → k = i) (hnext : Next (some i) t t') : OneBrief t' := by
  cases hnext.turned with
  | nobody => exact h.keep rfl (Int.le_refl _)
  | @somebody job slot slot' w' hjob hslot _ hwork =>
      have hself {k : Ticket} {phase : φ} {wait : Transport.Wait} {since : Nat}
          (hk : (t.slots.set i slot')[k]? = some (.waiting phase wait since))
          (hbrief : wait.brief = true) : k = i ∧ slot' = .waiting phase wait since := by
        rcases getElem?_set_cases hk with hself | ⟨hne, hold⟩
        · exact hself
        · exact absurd (honly k ⟨phase, wait, since, hold, hbrief⟩) hne
      constructor
      · intro k phase wait since hk hbrief
        obtain ⟨-, rfl⟩ := hself hk hbrief
        have htimer := work_brisk (hjobs job (List.mem_of_getElem? hjob)) hwork hbrief
        exact ⟨w'.now, htimer, Int.le_refl _⟩
      · rintro k l ⟨_, _, _, hk, hbriefₖ⟩ ⟨_, _, _, hl, hbriefₗ⟩
        rw [(hself hk hbriefₖ).1, (hself hl hbriefₗ).1]

/-- **On a run nobody has a turn before whoever pauses briefly.** -/
theorem OneBrief.step (h : OneBrief t) (hlength : t.jobs.length = t.slots.length)
    (hstep : t.step? = some t') :
    ∃ instant label, Next label (t.passTo instant) t' ∧
      ∀ i, label = some i → ∀ k, t.PausesBriefly k → k = i := by
  have hnobody (hnone : t.brief? = none) {i k : Ticket} (hk : t.PausesBriefly k) : k = i := by
    obtain ⟨a, hsome, -⟩ := h.next hlength hk
    cases hnone.symm.trans hsome
  have hnow : t.passTo t.world.now = t := passTo_of_le (Int.le_refl _)
  rcases step?_cases hstep with ⟨a, hsome, hnext⟩ | ⟨hnone, i, _, -, hnext⟩ |
    ⟨hnone, -, c, hevent, rfl⟩ | ⟨hnone, -, a, -, hnext⟩
  · refine ⟨t.world.now, some a.ticket, hnow.symm ▸ hnext, ?_⟩
    rintro i ⟨⟩ k hk
    obtain ⟨a', hsome', rfl⟩ := h.next hlength hk
    rw [Option.some.inj (hsome.symm.trans hsome')]
  · exact ⟨t.world.now, some i, hnow.symm ▸ hnext, fun _ _ _ => hnobody hnone⟩
  · obtain ⟨-, hfirst, -⟩ := event?_eq_cancellation.mp hevent
    refine ⟨c.instant, none, ?_, nofun⟩
    rw [← passTo_cancel]
    exact .cancellation (first?_mem hfirst) (Int.le_max_right _ _)
  · exact ⟨a.instant, some a.ticket, hnext, fun _ _ _ => hnobody hnone⟩

/-- **At any time of a run one job at most pauses briefly.** -/
theorem oneBrief_run {jobs : List (Job φ ρ)} (hjobs : ∀ job ∈ jobs, job.Brisk) (world : World)
    (ties : Ties) (n : Nat) : OneBrief ((ofJobs world jobs ties).run n) := by
  induction n with
  | zero => exact oneBrief_ofJobs world jobs ties
  | succ n ih =>
      rw [run_succ]
      cases hstep : ((ofJobs world jobs ties).run n).step? with
      | none => exact ih
      | some t' =>
          rw [Option.getD_some]
          obtain ⟨instant, label, hnext, honly⟩ := ih.step (jobs_length_run world jobs ties n) hstep
          have hkept := ih.pass (.passage _ instant)
          cases label with
          | none => exact hkept.pass hnext
          | some i =>
              refine hkept.turn ?_ (honly i rfl) hnext
              show ∀ job ∈ ((ofJobs world jobs ties).run n).jobs, job.Brisk
              rw [(run_reaches n _).jobs_eq]
              exact hjobs

end Timeline

end BearerAuth
