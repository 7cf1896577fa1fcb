import BearerAuth.Proofs.Timeline.Schedule

/-!
# What is inevitable

A move is what happens between two moments at which somebody has something to do: time may
pass while all rest, then one job takes a turn or one cancellation takes effect.  What is
`Inevitable` comes about whatever moves are made, and there is always one to make; the
order of `Timeline.run` makes moves, so what is inevitable comes about in it
(`Inevitable.run`).  What every move brings nearer is inevitable
(`inevitable_of_measure`).  `Turned` lists what the turn in a move may come to.
-/

namespace BearerAuth

namespace Timeline

variable {φ ρ : Type}

/-! ## Moves -/

/-- Time may pass until an instant: it does not pass, or all rest until then. -/
def MayPass (t : Timeline φ ρ) (instant : Instant) : Prop :=
  t.world.now < instant → t.RestsUntil instant

/-- Time passes as far as it may, and then somebody takes a turn or a cancellation takes
effect. -/
inductive Move (t : Timeline φ ρ) : Timeline φ ρ → Prop
  | turn {instant : Instant} {i : Ticket} {t' : Timeline φ ρ} : t.MayPass instant →
      Next (some i) (t.passTo instant) t' → Move t t'
  | cancellation {instant : Instant} {c : Cancellation} : t.MayPass instant →
      c ∈ t.world.agenda → c.instant ≤ (t.passTo instant).world.now →
      Move t ((t.passTo instant).cancel c)

/-- Whatever moves are made, it comes about: it is so, or there is a step, and after
every move it will come about. -/
inductive Inevitable (Q : Timeline φ ρ → Prop) : Timeline φ ρ → Prop
  | now {t : Timeline φ ρ} : Q t → Inevitable Q t
  | later {t : Timeline φ ρ} : (∃ t', t.step? = some t') → (∀ t', Move t t' → Inevitable Q t') →
      Inevitable Q t

theorem passTo_of_le {t : Timeline φ ρ} {instant : Instant} (h : instant ≤ t.world.now) :
    t.passTo instant = t := by
  simp [passTo, World.advanceTo, Int.max_eq_left h]

theorem event?_earliest {t : Timeline φ ρ} {event : Event} (h : t.event? = some event) :
    (∃ c ∈ t.world.agenda, event = .cancellation c ∧
      (∀ c' ∈ t.world.agenda, c.instant ≤ c'.instant) ∧
      ∀ a ∈ alarmsFrom 0 t.jobs t.slots, c.instant ≤ a.instant) ∨
    ∃ a ∈ alarmsFrom 0 t.jobs t.slots, event = .alarm a ∧
      (∀ c ∈ t.world.agenda, a.instant ≤ c.instant) ∧
      ∀ a' ∈ alarmsFrom 0 t.jobs t.slots, a.instant ≤ a'.instant := by
  rw [event?] at h
  split at h
  · cases h
  · cases hc : first? (fun a b : Cancellation => decide (a.instant < b.instant))
        t.world.agenda with
    | none =>
        cases ha : first? (Alarm.precedes t.ties) (alarmsFrom 0 t.jobs t.slots) with
        | none => simp [hc, ha, earlier?] at h
        | some a =>
            simp only [hc, ha, earlier?, Option.some.injEq] at h
            refine .inr ⟨a, first?_mem ha, h.symm, ?_, first?_le ha⟩
            rw [first?_eq_none hc]
            exact List.forall_mem_nil _
    | some c =>
        cases ha : first? (Alarm.precedes t.ties) (alarmsFrom 0 t.jobs t.slots) with
        | none =>
            simp only [hc, ha, earlier?, Option.some.injEq] at h
            refine .inl ⟨c, first?_mem hc, h.symm, earliest_of_first? hc, ?_⟩
            rw [first?_eq_none ha]
            exact List.forall_mem_nil _
        | some a =>
            simp only [hc, ha, earlier?] at h
            split at h
            · next hlt =>
                refine .inr ⟨a, first?_mem ha, (Option.some.inj h).symm, ?_, first?_le ha⟩
                intro c' hc'
                exact Int.le_trans (Int.le_of_lt hlt) (earliest_of_first? hc c' hc')
            · next hle =>
                refine .inl ⟨c, first?_mem hc, (Option.some.inj h).symm, earliest_of_first? hc, ?_⟩
                intro a' ha'
                exact Int.le_trans (Int.not_lt.mp hle) (first?_le ha a' ha')

theorem exists_event {t : Timeline φ ρ} {a : Alarm} (ha : a ∈ alarmsFrom 0 t.jobs t.slots) :
    ∃ event, t.event? = some event := by
  rw [event?]
  rw [if_neg (not_all_ended ha)]
  cases hfirst : first? (Alarm.precedes t.ties) (alarmsFrom 0 t.jobs t.slots) with
  | none =>
      rw [first?_eq_none hfirst] at ha
      cases ha
  | some b =>
      cases first? (fun a b : Cancellation => decide (a.instant < b.instant)) t.world.agenda with
      | none => exact ⟨_, rfl⟩
      | some c =>
          rw [earlier?]
          split
          · exact ⟨_, rfl⟩
          · exact ⟨_, rfl⟩

theorem step?_move {t t' : Timeline φ ρ} (h : t.step? = some t') : Move t t' := by
  have hturn {i : Ticket} {t' : Timeline φ ρ} (hnext : Next (some i) t t') : Move t t' := by
    rw [← passTo_of_le (Int.le_refl t.world.now)] at hnext
    exact .turn (fun hlt => absurd hlt (Int.lt_irrefl _)) hnext
  rw [step?] at h
  split at h
  · next a hbrief =>
      obtain ⟨ha, hdue⟩ := brief?_mem hbrief
      obtain rfl := Option.some.inj h
      exact hturn (.alarm ha hdue)
  · split at h
    · next i rest hline =>
        have hleft : t.leaveLine i = { t with line := rest } := by simp [leaveLine, hline]
        have hnext := Next.turn (t := t) (i := i) (by simp [hline])
        rw [hleft, Option.some.inj h] at hnext
        exact hturn hnext
    · next hline =>
        obtain ⟨event, hevent, rfl⟩ := Option.map_eq_some_iff.mp h
        rcases event?_earliest hevent with ⟨c, hc, rfl, hagenda, halarms⟩ |
          ⟨a, ha, rfl, hagenda, halarms⟩
        · show Move t (t.cancel c)
          rw [← passTo_cancel]
          exact .cancellation (fun _ => ⟨hline, halarms, hagenda⟩) hc (Int.le_max_right _ _)
        · have hnext := Next.alarm (t := t.passTo a.instant) ha (Int.le_max_right _ _)
          rw [leaveLine_passTo hline] at hnext
          exact .turn (fun _ => ⟨hline, halarms, hagenda⟩) hnext

/-- What is inevitable comes about in a run. -/
theorem Inevitable.run {Q : Timeline φ ρ → Prop} {t : Timeline φ ρ} (h : Inevitable Q t) :
    ∃ fuel, Q (t.run fuel) := by
  induction h with
  | now hQ => exact ⟨0, hQ⟩
  | @later t hstep _ ih =>
      obtain ⟨t', ht'⟩ := hstep
      obtain ⟨fuel, hfuel⟩ := ih t' (step?_move ht')
      refine ⟨fuel + 1, ?_⟩
      rw [Timeline.run, ht']
      exact hfuel

/-- What every move brings nearer is inevitable. -/
theorem inevitable_of_measure {α : Type} {r : α → α → Prop} (hwf : WellFounded r)
    {I Q : Timeline φ ρ → Prop} (measure : Timeline φ ρ → α)
    (hstep : ∀ {t}, I t → ∃ t', t.step? = some t')
    (hmove : ∀ {t t'}, I t → Move t t' → Q t' ∨ I t' ∧ r (measure t') (measure t))
    {t : Timeline φ ρ} (h : I t) : Inevitable Q t := by
  induction hm : measure t using hwf.induction generalizing t with
  | h m ih =>
      refine .later (hstep h) ?_
      intro t' ht'
      rcases hmove h ht' with hQ | ⟨hI, hless⟩
      · exact .now hQ
      · exact ih _ (hm ▸ hless) hI rfl

theorem run_add (fuel more : Nat) (t : Timeline φ ρ) :
    t.run (fuel + more) = (t.run fuel).run more := by
  induction fuel generalizing t with
  | zero => rw [Nat.zero_add, run]
  | succ fuel ih =>
      rw [Nat.succ_add, run, run]
      cases hstep : t.step? with
      | none =>
          cases more with
          | zero => rfl
          | succ more => rw [run, hstep]
      | some t' => exact ih t'

/-! ## Turns -/

/-- The timeline after a turn of a job that leaves its slot and the world like this. -/
def turned (t : Timeline φ ρ) (i : Ticket) (job : Job φ ρ) (slot' : Slot φ ρ) (w' : World) :
    Timeline φ ρ :=
  { t with
    world := { w' with released := [] }
    slots := t.slots.set i slot'
    line := join (t.line.erase i) (summoned i job slot' w')
    turn := t.turn + 1 }

/-- What the turn of a ticket comes to. -/
inductive Turned (t : Timeline φ ρ) (i : Ticket) : Timeline φ ρ → Prop
  /-- There is no job for it, so it only leaves the line. -/
  | nobody : t.jobs[i]? = none ∨ t.slots[i]? = none → i ∈ t.line → Turned t i (t.leaveLine i)
  /-- Its job, which is in line or whose timer has gone off, does its work. -/
  | somebody {job : Job φ ρ} {slot slot' : Slot φ ρ} {w' : World} : t.jobs[i]? = some job →
      t.slots[i]? = some slot →
      (i ∈ t.line ∨ ∃ a, alarm? i job slot = some a ∧ a.instant ≤ t.world.now) →
      work t.turn job t.world slot = (slot', w') → Turned t i (t.turned i job slot' w')

theorem Next.turned {t t' : Timeline φ ρ} {i : Ticket} (h : Next (some i) t t') :
    Turned t i t' := by
  have hcalled : i ∈ t.line ∨ ∃ job slot, t.jobs[i]? = some job ∧ t.slots[i]? = some slot ∧
      ∃ a, alarm? i job slot = some a ∧ a.instant ≤ t.world.now := by
    cases h with
    | turn hline => exact .inl hline
    | @alarm _ a ha hdue =>
        obtain ⟨k, job, slot, hjob, hslot, halarm⟩ := mem_alarmsFrom.mp ha
        rw [Nat.zero_add] at halarm
        rw [alarm?_ticket halarm]
        exact .inr ⟨job, slot, hjob, hslot, a, halarm, hdue⟩
  rw [h.eq_takeTurn]
  by_cases hnone : t.jobs[i]? = none ∨ t.slots[i]? = none
  · rw [takeTurn_of_none (t := t.leaveLine i) hnone]
    rcases hcalled with hline | ⟨job, slot, hjob, hslot, -⟩
    · exact .nobody hnone hline
    · exact absurd hnone (not_none_or hjob hslot)
  · rw [not_or] at hnone
    obtain ⟨job, hjob⟩ := Option.ne_none_iff_exists'.mp hnone.1
    obtain ⟨slot, hslot⟩ := Option.ne_none_iff_exists'.mp hnone.2
    rw [@takeTurn_eq _ _ (t.leaveLine i) i job slot hjob hslot]
    refine .somebody hjob hslot ?_ rfl
    rcases hcalled with hline | ⟨job', slot', hjob', hslot', hdue⟩
    · exact .inl hline
    · obtain rfl := Option.some.inj (hjob.symm.trans hjob')
      obtain rfl := Option.some.inj (hslot.symm.trans hslot')
      exact .inr hdue

end Timeline

end BearerAuth
