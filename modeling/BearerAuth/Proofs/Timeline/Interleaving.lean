import BearerAuth.Timeline
import Mathlib.Logic.Relation

/-!
# All orders in which callers may take turns

`Timeline.step?` picks one order: whoever made only a brief pause first, then the
line, then the earliest event.  `Next` leaves the order open.  Time passes at any
moment, however far; a cancellation whose instant has come takes effect now or
later; a job whose caller is in line, or whose timer has gone off, takes a turn
now or later.  The label of a step is the ticket of the job that takes a turn in
it.

What holds after any number of such steps (`Reaches`) holds whatever the
scheduler does; `run_reaches` says that the order of `Timeline.run` is one of
them.  A caller that is free to go on and is kept waiting stands for one that
others overtake between two of its looks at what they share.
-/

namespace BearerAuth

namespace Timeline

variable {φ ρ : Type}

/-! ## The line -/

theorem mem_join {k : Ticket} {line more : List Ticket} :
    k ∈ join line more ↔ k ∈ line ∨ k ∈ more := by
  induction more generalizing line with
  | nil => simp [join]
  | cons ticket rest ih =>
      rw [join, ih]
      by_cases h : ticket ∈ line
      · simp only [List.contains_iff_mem, h, if_true, List.mem_cons]
        constructor
        · rintro (hk | hk)
          · exact .inl hk
          · exact .inr (.inr hk)
        · rintro (hk | rfl | hk)
          · exact .inl hk
          · exact .inl h
          · exact .inr hk
      · simp [h, or_assoc]

theorem nodup_join {line : List Ticket} (more : List Ticket) (h : line.Nodup) :
    (join line more).Nodup := by
  induction more generalizing line with
  | nil => exact h
  | cons ticket rest ih =>
      rw [join]
      apply ih
      by_cases hmem : ticket ∈ line
      · simpa [hmem] using h
      · simp only [List.contains_iff_mem, hmem, if_false]
        refine List.nodup_append.mpr ⟨h, by simp, ?_⟩
        rintro a ha b hb rfl
        exact hmem (List.mem_singleton.mp hb ▸ ha)

/-! ## Turns -/

theorem not_none_or {α β : Type} {a? : Option α} {b? : Option β} {a : α} {b : β}
    (ha : a? = some a) (hb : b? = some b) : ¬ (a? = none ∨ b? = none) := by
  subst ha hb
  rintro (hnone | hnone)
  · cases hnone
  · cases hnone

theorem getElem?_set_cases {α : Type} {l : List α} {i k : Nat} {a b : α}
    (h : (l.set i a)[k]? = some b) : k = i ∧ a = b ∨ k ≠ i ∧ l[k]? = some b := by
  rw [List.getElem?_set] at h
  split at h
  · next heq =>
      subst heq
      split at h
      · exact .inl ⟨rfl, Option.some.inj h⟩
      · cases h
  · next hne => exact .inr ⟨Ne.symm hne, h⟩

theorem takeTurn_eq {t : Timeline φ ρ} {i : Ticket} {job : Job φ ρ} {slot : Slot φ ρ}
    (hjob : t.jobs[i]? = some job) (hslot : t.slots[i]? = some slot) :
    t.takeTurn i =
      let (slot', world') := work t.turn job t.world slot
      { t with
        world := { world' with released := [] }
        slots := t.slots.set i slot'
        line := join t.line (summoned i job slot' world')
        turn := t.turn + 1 } := by
  simp [takeTurn, hjob, hslot]

theorem takeTurn_of_none {t : Timeline φ ρ} {i : Ticket}
    (h : t.jobs[i]? = none ∨ t.slots[i]? = none) : t.takeTurn i = t := by
  rw [takeTurn]
  rcases h with h | h
  · simp [h]
  · cases t.jobs[i]? <;> simp [h]

@[simp] theorem takeTurn_jobs (t : Timeline φ ρ) (i : Ticket) : (t.takeTurn i).jobs = t.jobs := by
  rw [takeTurn]
  split <;> rfl

@[simp] theorem takeTurn_ties (t : Timeline φ ρ) (i : Ticket) : (t.takeTurn i).ties = t.ties := by
  rw [takeTurn]
  split <;> rfl

@[simp] theorem takeTurn_slots_length (t : Timeline φ ρ) (i : Ticket) :
    (t.takeTurn i).slots.length = t.slots.length := by
  rw [takeTurn]
  split <;> simp

theorem takeTurn_slots_ne {t : Timeline φ ρ} {i k : Ticket} (h : i ≠ k) :
    (t.takeTurn i).slots[k]? = t.slots[k]? := by
  rw [takeTurn]
  split
  · simp [h]
  · rfl

theorem takeTurn_ended {t : Timeline φ ρ} {i k : Ticket} {result : ρ} {w : World}
    (h : t.slots[k]? = some (.ended result w)) :
    (t.takeTurn i).slots[k]? = some (.ended result w) := by
  by_cases heq : i = k
  · subst heq
    cases hjob : t.jobs[i]? with
    | none => rw [takeTurn_of_none (.inl hjob), h]
    | some job =>
        rw [takeTurn_eq hjob h]
        simp [work, (List.getElem?_eq_some_iff.mp h).1]
  · rw [takeTurn_slots_ne heq, h]

/-! ## Steps -/

def passTo (t : Timeline φ ρ) (instant : Instant) : Timeline φ ρ :=
  { t with world := t.world.advanceTo instant }

def leaveLine (t : Timeline φ ρ) (i : Ticket) : Timeline φ ρ :=
  { t with line := t.line.erase i }

theorem ofJobs_slots_iff {world : World} {jobs : List (Job φ ρ)} {ties : Ties} {k : Ticket}
    {slot : Slot φ ρ} :
    (ofJobs world jobs ties).slots[k]? = some slot ↔ slot = .idle none ∧ k < jobs.length := by
  rw [ofJobs, List.getElem?_map, Option.map_eq_some_iff]
  constructor
  · rintro ⟨job, hjob, rfl⟩
    exact ⟨rfl, (List.getElem?_eq_some_iff.mp hjob).1⟩
  · rintro ⟨rfl, hlt⟩
    exact ⟨jobs[k], List.getElem?_eq_getElem hlt, rfl⟩

/-- What may happen next, in any order. -/
inductive Next : Option Ticket → Timeline φ ρ → Timeline φ ρ → Prop
  | passage (t : Timeline φ ρ) (instant : Instant) : Next none t (t.passTo instant)
  | cancellation {t : Timeline φ ρ} {c : Cancellation} : c ∈ t.world.agenda →
      c.instant ≤ t.world.now → Next none t (t.cancel c)
  | turn {t : Timeline φ ρ} {i : Ticket} : i ∈ t.line →
      Next (some i) t ((t.leaveLine i).takeTurn i)
  | alarm {t : Timeline φ ρ} {a : Alarm} : a ∈ alarmsFrom 0 t.jobs t.slots →
      a.instant ≤ t.world.now → Next (some a.ticket) t ((t.leaveLine a.ticket).takeTurn a.ticket)

/-- In a step a job begins: it has its first turn that is not too early. -/
structure Begins (i : Ticket) (t t' : Timeline φ ρ) : Prop where
  next : Next (some i) t t'
  idle : ∃ since, t.slots[i]? = some (.idle since)
  due : ∀ job, t.jobs[i]? = some job → job.begins ≤ t.world.now

theorem Next.eq_takeTurn {i : Ticket} {t t' : Timeline φ ρ} (h : Next (some i) t t') :
    t' = (t.leaveLine i).takeTurn i := by
  cases h with
  | turn => rfl
  | alarm => rfl

theorem Begins.world_eq {i : Ticket} {t t' : Timeline φ ρ} {job : Job φ ρ} (h : Begins i t t')
    (hjob : t.jobs[i]? = some job) :
    t'.world = { (job.start t.world).2 with released := [] } := by
  obtain ⟨since, hslot⟩ := h.idle
  have hdue : ¬ t.world.now < job.begins := Int.not_lt.mpr (h.due job hjob)
  rw [h.next.eq_takeTurn, @takeTurn_eq _ _ (t.leaveLine i) i job _ hjob hslot]
  simp [work, leaveLine, hdue]

/-- A slot that changes in a step is that of the job that takes a turn in it. -/
theorem Next.slots_cases {label : Option Ticket} {t t' : Timeline φ ρ} (h : Next label t t')
    (k : Ticket) : t'.slots[k]? = t.slots[k]? ∨ label = some k := by
  have hturn (i : Ticket) : ((t.leaveLine i).takeTurn i).slots[k]? = t.slots[k]? ∨
      some i = some k := by
    by_cases heq : i = k
    · exact .inr (congrArg some heq)
    · exact .inl (takeTurn_slots_ne heq)
  cases h with
  | passage => exact .inl rfl
  | cancellation => exact .inl rfl
  | @turn _ i _ => exact hturn i
  | @alarm _ a _ _ => exact hturn a.ticket

theorem Next.ended {label : Option Ticket} {t t' : Timeline φ ρ} (h : Next label t t')
    {k : Ticket} {result : ρ} {w : World} (hk : t.slots[k]? = some (.ended result w)) :
    t'.slots[k]? = some (.ended result w) := by
  have hleft (i : Ticket) : (t.leaveLine i).slots[k]? = some (.ended result w) := hk
  cases h with
  | passage => exact hk
  | cancellation => exact hk
  | @turn _ i _ => exact takeTurn_ended (hleft i)
  | @alarm _ a _ _ => exact takeTurn_ended (hleft a.ticket)

theorem Next.slots_length {label : Option Ticket} {t t' : Timeline φ ρ} (h : Next label t t') :
    t'.slots.length = t.slots.length := by
  cases h with
  | passage => rfl
  | cancellation => rfl
  | turn => simp [leaveLine]
  | alarm => simp [leaveLine]

theorem Next.jobs_eq {label : Option Ticket} {t t' : Timeline φ ρ} (h : Next label t t') :
    t'.jobs = t.jobs := by
  cases h with
  | passage => rfl
  | cancellation => rfl
  | turn => simp [leaveLine]
  | alarm => simp [leaveLine]

theorem Next.ties_eq {label : Option Ticket} {t t' : Timeline φ ρ} (h : Next label t t') :
    t'.ties = t.ties := by
  cases h with
  | passage => rfl
  | cancellation => rfl
  | turn => simp [leaveLine]
  | alarm => simp [leaveLine]

/-- What may have happened after any number of steps. -/
def Reaches : Timeline φ ρ → Timeline φ ρ → Prop :=
  Relation.ReflTransGen fun t t' => ∃ label, Next label t t'

theorem Next.reaches {label : Option Ticket} {t t' : Timeline φ ρ} (h : Next label t t') :
    Reaches t t' :=
  Relation.ReflTransGen.single ⟨label, h⟩

/-- What holds at first and is kept by every step holds in all that is
reached. -/
theorem Reaches.invariant {I : Timeline φ ρ → Prop} {t t' : Timeline φ ρ} (h : Reaches t t')
    (hfirst : I t) (hstep : ∀ {label t t'}, I t → Next label t t' → I t') : I t' := by
  induction h with
  | refl => exact hfirst
  | tail _ hnext ih =>
      obtain ⟨label, hnext⟩ := hnext
      exact hstep ih hnext

/-! ## The order of `run` is one of them -/

theorem first?_mem {α : Type} {precedes : α → α → Bool} {l : List α} {a : α}
    (h : first? precedes l = some a) : a ∈ l := by
  induction l generalizing a with
  | nil => cases h
  | cons b rest ih =>
      rw [first?] at h
      cases hrest : first? precedes rest with
      | none => simp_all
      | some c =>
          rw [hrest] at h
          by_cases hc : precedes c b = true
          · simp only [hc, if_true, Option.some.injEq] at h
            exact List.mem_cons_of_mem _ (h ▸ ih hrest)
          · simp only [hc, Bool.false_eq_true, if_false, Option.some.injEq] at h
            exact h ▸ List.mem_cons_self

theorem event?_cases {t : Timeline φ ρ} {event : Event} (h : t.event? = some event) :
    (∃ c ∈ t.world.agenda, event = .cancellation c) ∨
      (∃ a ∈ alarmsFrom 0 t.jobs t.slots, event = .alarm a) := by
  rw [event?] at h
  split at h
  · cases h
  · cases hc : first? (fun a b : Cancellation => a.instant < b.instant) t.world.agenda with
    | none =>
        cases ha : first? (Alarm.precedes t.ties) (alarmsFrom 0 t.jobs t.slots) with
        | none => simp [hc, ha, earlier?] at h
        | some a =>
            simp only [hc, ha, earlier?, Option.some.injEq] at h
            exact .inr ⟨a, first?_mem ha, h.symm⟩
    | some c =>
        cases ha : first? (Alarm.precedes t.ties) (alarmsFrom 0 t.jobs t.slots) with
        | none =>
            simp only [hc, ha, earlier?, Option.some.injEq] at h
            exact .inl ⟨c, first?_mem hc, h.symm⟩
        | some a =>
            simp only [hc, ha, earlier?] at h
            split at h
            · exact .inr ⟨a, first?_mem ha, (Option.some.inj h).symm⟩
            · exact .inl ⟨c, first?_mem hc, (Option.some.inj h).symm⟩

theorem brief?_mem {t : Timeline φ ρ} {a : Alarm} (h : t.brief? = some a) :
    a ∈ alarmsFrom 0 t.jobs t.slots ∧ a.instant ≤ t.world.now := by
  rw [brief?] at h
  have hdue := List.find?_some h
  rw [Bool.and_eq_true, decide_eq_true_eq] at hdue
  exact ⟨List.mem_of_find?_eq_some h, hdue.2⟩

theorem advanceTo_advanceTo (world : World) (instant : Instant) :
    (world.advanceTo instant).advanceTo instant = world.advanceTo instant := by
  simp [World.advanceTo]

theorem passTo_cancel (t : Timeline φ ρ) (c : Cancellation) :
    (t.passTo c.instant).cancel c = t.cancel c := by
  unfold passTo cancel
  simp only [advanceTo_advanceTo]

theorem leaveLine_passTo {t : Timeline φ ρ} (hline : t.line = []) (instant : Instant)
    (i : Ticket) : (t.passTo instant).leaveLine i = t.passTo instant := by
  simp [leaveLine, passTo, hline]

theorem step?_reaches {t t' : Timeline φ ρ} (h : t.step? = some t') : Reaches t t' := by
  rw [step?] at h
  split at h
  · next a hbrief =>
      obtain ⟨ha, hdue⟩ := brief?_mem hbrief
      obtain rfl := Option.some.inj h
      exact (Next.alarm ha hdue).reaches
  · split at h
    · next i rest hline =>
        have hnext := Next.turn (t := t) (i := i) (by simp [hline])
        have herase : t.leaveLine i = { t with line := rest } := by simp [leaveLine, hline]
        rw [herase, Option.some.inj h] at hnext
        exact hnext.reaches
    · next hline =>
        obtain ⟨event, hevent, rfl⟩ := Option.map_eq_some_iff.mp h
        rcases event?_cases hevent with ⟨c, hc, rfl⟩ | ⟨a, ha, rfl⟩
        · refine (Next.passage t c.instant).reaches.trans ?_
          have hnext := Next.cancellation (t := t.passTo c.instant) hc (Int.le_max_right _ _)
          rw [passTo_cancel] at hnext
          exact hnext.reaches
        · refine (Next.passage t a.instant).reaches.trans ?_
          have hnext := Next.alarm (t := t.passTo a.instant) ha (Int.le_max_right _ _)
          rw [leaveLine_passTo hline] at hnext
          exact hnext.reaches

theorem run_reaches (fuel : Nat) (t : Timeline φ ρ) : Reaches t (t.run fuel) := by
  induction fuel generalizing t with
  | zero => exact .refl
  | succ fuel ih =>
      rw [run]
      cases h : t.step? with
      | none => exact .refl
      | some next => exact (step?_reaches h).trans (ih next)

end Timeline

end BearerAuth
