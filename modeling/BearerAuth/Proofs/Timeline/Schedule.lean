import BearerAuth.Proofs.Timeline.Interleaving
import Mathlib.Algebra.Ring.Nat

/-!
# Orders that keep nobody waiting

Among the orders of `Timeline.Next` the prompt ones keep nobody waiting: no time passes while there
is something to do (`Prompt`, `Promptly`).  The order of turns is still open.  `Timeline.run` takes
one of them, and where each of its steps lowers a measure it has come to its end after as many steps
(`run_of_measure`).  Below are the parts that its steps are made of: the earliest alarm, the step
when somebody is in line and when nobody is, and the results when all have ended.
-/

namespace BearerAuth

namespace Timeline

variable {φ ρ : Type}

/-! ## Prompt steps -/

/-- Nobody is in line, and nothing is to come before an instant. -/
structure RestsUntil (t : Timeline φ ρ) (instant : Instant) : Prop where
  line : t.line = []
  alarms : ∀ a ∈ alarmsFrom 0 t.jobs t.slots, instant ≤ a.instant
  agenda : ∀ c ∈ t.world.agenda, instant ≤ c.instant

/-- A step that keeps nobody waiting: time passes only while all rest. -/
structure Prompt (label : Option Ticket) (t t' : Timeline φ ρ) : Prop where
  next : Next label t t'
  rests : label = none → t.world.now < t'.world.now → t.RestsUntil t'.world.now

/-- What may have happened after prompt steps, and after how many turns. -/
inductive Promptly (start : Timeline φ ρ) : Nat → Timeline φ ρ → Prop
  | refl : Promptly start 0 start
  | pass {turns : Nat} {t t' : Timeline φ ρ} : Promptly start turns t → Prompt none t t' →
      Promptly start turns t'
  | turn {turns : Nat} {t t' : Timeline φ ρ} {i : Ticket} : Promptly start turns t →
      Prompt (some i) t t' → Promptly start (turns + 1) t'

theorem Promptly.reaches {start t : Timeline φ ρ} {turns : Nat} (h : Promptly start turns t) :
    Reaches start t := by
  induction h with
  | refl => exact .refl
  | pass _ hprompt ih => exact ih.trans hprompt.next.reaches
  | turn _ hprompt ih => exact ih.trans hprompt.next.reaches

theorem Promptly.extend {start t t' : Timeline φ ρ} {turns : Nat} (h : Promptly start turns t)
    {label : Option Ticket} (hprompt : Prompt label t t') : ∃ turns', Promptly start turns' t' := by
  cases label with
  | none => exact ⟨turns, h.pass hprompt⟩
  | some i => exact ⟨turns + 1, h.turn hprompt⟩

/-- What prompt steps keep, with a measure that every turn lowers. -/
theorem Promptly.invariant {I : Timeline φ ρ → Prop} {measure : Timeline φ ρ → Nat}
    (hpass : ∀ {t t'}, I t → Prompt none t t' → I t' ∧ measure t' = measure t)
    (hturn : ∀ {i t t'}, I t → Prompt (some i) t t' → I t' ∧ measure t' < measure t)
    {start t : Timeline φ ρ} {turns : Nat} (h : Promptly start turns t) (hfirst : I start) :
    I t ∧ turns + measure t ≤ measure start := by
  induction h with
  | refl => exact ⟨hfirst, by omega⟩
  | pass _ hprompt ih =>
      obtain ⟨hI, hsame⟩ := hpass ih.1 hprompt
      exact ⟨hI, by omega⟩
  | turn _ hprompt ih =>
      obtain ⟨hI, hlt⟩ := hturn ih.1 hprompt
      exact ⟨hI, by omega⟩

/-! ## Steps that lower a measure -/

/-- Where every step keeps an invariant and lowers a measure, a run with enough
fuel ends where there is no step. -/
theorem run_of_measure {I Q : Timeline φ ρ → Prop} {measure : Timeline φ ρ → Nat}
    (hstep : ∀ {t}, I t → (t.step? = none ∧ Q t) ∨
      ∃ t', t.step? = some t' ∧ I t' ∧ measure t' < measure t)
    (fuel : Nat) {t : Timeline φ ρ} (h : I t) (hfuel : measure t ≤ fuel) : Q (t.run fuel) := by
  induction fuel generalizing t with
  | zero =>
      rcases hstep h with ⟨-, hend⟩ | ⟨t', -, -, hlt⟩
      · exact hend
      · omega
  | succ fuel ih =>
      rw [run]
      rcases hstep h with ⟨hnone, hend⟩ | ⟨t', hsome, h', hlt⟩
      · rw [hnone]
        exact hend
      · rw [hsome]
        exact ih h' (by omega)

theorem sum_map_set {α : Type} {l : List α} {i : Nat} {a b : α} (f : α → Nat)
    (h : l[i]? = some a) : ((l.set i b).map f).sum + f a = (l.map f).sum + f b := by
  induction l generalizing i with
  | nil => cases h
  | cons first rest ih =>
      cases i with
      | zero =>
          obtain rfl := Option.some.inj h
          simp only [List.set_cons_zero, List.map_cons, List.sum_cons]
          omega
      | succ i =>
          have hrest := ih (i := i) h
          simp only [List.set_cons_succ, List.map_cons, List.sum_cons]
          omega

/-! ## The earliest alarm -/

theorem first?_eq_none {α : Type} {precedes : α → α → Bool} {l : List α}
    (h : first? precedes l = none) : l = [] := by
  cases l with
  | nil => rfl
  | cons a rest =>
      rw [first?] at h
      split at h
      · cases h
      · split at h <;> cases h

/-- How the first of a list stands to all of it, when an element stands like that to itself and to
those that it precedes, and one that is not preceded stands to the others like the one that does not
precede it. -/
theorem first?_stands {α : Type} {precedes : α → α → Bool} {stands : α → α → Prop}
    (hself : ∀ a, stands a a) (hbefore : ∀ {a b}, precedes a b = true → stands a b)
    (hafter : ∀ {a b c}, ¬ precedes a b = true → stands a c → stands b c) {l : List α} {a : α}
    (h : first? precedes l = some a) : ∀ b ∈ l, stands a b := by
  induction l generalizing a with
  | nil => cases h
  | cons c rest ih =>
      intro b hb
      rw [first?] at h
      cases hrest : first? precedes rest with
      | none =>
          rw [hrest] at h
          obtain rfl := Option.some.inj h
          rw [first?_eq_none hrest, List.mem_singleton] at hb
          exact hb ▸ hself _
      | some d =>
          rw [hrest] at h
          have hd := ih hrest
          by_cases hprecedes : precedes d c = true
          · simp only [hprecedes, if_true, Option.some.injEq] at h
            subst h
            rcases List.mem_cons.mp hb with rfl | hb
            · exact hbefore hprecedes
            · exact hd b hb
          · simp only [hprecedes, Bool.false_eq_true, if_false, Option.some.injEq] at h
            subst h
            rcases List.mem_cons.mp hb with rfl | hb
            · exact hself _
            · exact hafter hprecedes (hd b hb)

theorem first?_earliest {α : Type} {precedes : α → α → Bool} {instant : α → Instant}
    (hbefore : ∀ {a b}, precedes a b = true → instant a ≤ instant b)
    (hafter : ∀ {a b}, ¬ precedes a b = true → instant b ≤ instant a) {l : List α} {a : α}
    (h : first? precedes l = some a) : ∀ b ∈ l, instant a ≤ instant b := by
  refine first?_stands ?_ hbefore ?_ h
  · exact fun _ => Int.le_refl _
  · exact fun hprecedes hle => Int.le_trans (hafter hprecedes) hle

theorem earliest_of_first? {α : Type} {instant : α → Instant} {l : List α} {a : α}
    (h : first? (fun x y => decide (instant x < instant y)) l = some a) :
    ∀ x ∈ l, instant a ≤ instant x := by
  refine first?_earliest ?_ ?_ h
  · intro x y hlt
    exact Int.le_of_lt (of_decide_eq_true hlt)
  · intro x y hlt
    exact Int.not_lt.mp fun hlt' => hlt (decide_eq_true hlt')

theorem first?_le {ties : Ties} {alarms : List Alarm} {a : Alarm}
    (h : first? (Alarm.precedes ties) alarms = some a) : ∀ b ∈ alarms, a.instant ≤ b.instant := by
  refine first?_earliest ?_ ?_ h
  · intro a b hprecedes
    simp only [Alarm.precedes, Bool.or_eq_true, Bool.and_eq_true, decide_eq_true_eq,
      beq_iff_eq] at hprecedes
    rcases hprecedes with hlt | ⟨heq, -⟩
    · exact Int.le_of_lt hlt
    · exact Int.le_of_eq heq
  · intro a b hprecedes
    simp only [Alarm.precedes, Bool.or_eq_true, decide_eq_true_eq] at hprecedes
    exact Int.not_lt.mp fun hlt => hprecedes (.inl hlt)

theorem mem_alarmsFrom {a : Alarm} : ∀ {k : Ticket} {jobs : List (Job φ ρ)}
    {slots : List (Slot φ ρ)}, a ∈ alarmsFrom k jobs slots ↔
      ∃ i job slot, jobs[i]? = some job ∧ slots[i]? = some slot ∧ alarm? (k + i) job slot = some a
  | k, [], slots => by simp [alarmsFrom]
  | k, job :: jobs, [] => by simp [alarmsFrom]
  | k, job :: jobs, slot :: slots => by
      simp only [alarmsFrom, List.mem_append, Option.mem_toList, mem_alarmsFrom]
      constructor
      · rintro (hfirst | ⟨i, job', slot', hjob, hslot, halarm⟩)
        · exact ⟨0, job, slot, rfl, rfl, hfirst⟩
        · refine ⟨i + 1, job', slot', hjob, hslot, ?_⟩
          rw [← halarm, Nat.add_assoc, Nat.add_comm 1 i]
      · rintro ⟨i, job', slot', hjob, hslot, halarm⟩
        cases i with
        | zero =>
            obtain rfl := Option.some.inj hjob
            obtain rfl := Option.some.inj hslot
            exact .inl halarm
        | succ i =>
            refine .inr ⟨i, job', slot', hjob, hslot, ?_⟩
            rw [← halarm, Nat.add_assoc, Nat.add_comm 1 i]

theorem alarm?_ticket {k : Ticket} {job : Job φ ρ} {slot : Slot φ ρ} {a : Alarm}
    (h : alarm? k job slot = some a) : a.ticket = k := by
  cases slot with
  | idle since =>
      obtain ⟨-, -, rfl⟩ := Option.map_eq_some_iff.mp h
      rfl
  | waiting phase wait since =>
      obtain ⟨-, -, rfl⟩ := Option.map_eq_some_iff.mp h
      rfl
  | ended result world => cases h

theorem step?_brief {t : Timeline φ ρ} {a : Alarm} (h : t.brief? = some a) :
    t.step? = some ((t.leaveLine a.ticket).takeTurn a.ticket) := by
  rw [step?]
  rw [h]
  rfl

theorem step?_head {t : Timeline φ ρ} {i : Ticket} {rest : List Ticket} (hbrief : t.brief? = none)
    (hline : t.line = i :: rest) : t.step? = some ((t.leaveLine i).takeTurn i) := by
  have hleft : t.leaveLine i = { t with line := rest } := by simp [leaveLine, hline]
  rw [step?]
  rw [hbrief, hline, hleft]

theorem step?_event {t : Timeline φ ρ} (hbrief : t.brief? = none) (hline : t.line = []) :
    t.step? = t.event?.map t.happen := by
  rw [step?]
  rw [hbrief, hline]

theorem brief?_of_no_alarm {t : Timeline φ ρ} (h : alarmsFrom 0 t.jobs t.slots = []) :
    t.brief? = none := by
  rw [brief?, h]
  rfl

theorem step?_of_ended {t : Timeline φ ρ} (hline : t.line = [])
    (h : ∀ slot ∈ t.slots, slot.hasEnded = true) : t.step? = none := by
  have halarms : alarmsFrom 0 t.jobs t.slots = [] := by
    refine List.eq_nil_iff_forall_not_mem.mpr fun a ha => ?_
    obtain ⟨i, job, slot, -, hslot, halarm⟩ := mem_alarmsFrom.mp ha
    have hended := h slot (List.mem_of_getElem? hslot)
    cases slot with
    | ended result world => cases halarm
    | idle since => cases hended
    | waiting phase wait since => cases hended
  have hevent : t.event? = none := by
    rw [event?]
    rw [if_pos (List.all_eq_true.mpr h)]
  rw [step?_event (brief?_of_no_alarm halarms) hline, hevent]
  rfl

theorem not_all_ended {t : Timeline φ ρ} {a : Alarm} (ha : a ∈ alarmsFrom 0 t.jobs t.slots) :
    ¬ t.slots.all Slot.hasEnded = true := by
  obtain ⟨i, job, slot, -, hslot, halarm⟩ := mem_alarmsFrom.mp ha
  intro hall
  have hended := List.all_eq_true.mp hall slot (List.mem_of_getElem? hslot)
  cases slot with
  | ended result world => cases halarm
  | idle since => cases hended
  | waiting phase wait since => cases hended

/-! ## The end -/

theorem results?_of_ended {t : Timeline φ ρ} {ends : ρ → World → Prop}
    (h : ∀ slot ∈ t.slots, ∃ result world, slot = .ended result world ∧ ends result world) :
    ∃ results, t.results? = some results ∧ results.length = t.slots.length ∧
      ∀ entry ∈ results, ends entry.1 entry.2 := by
  rw [results?]
  generalize t.slots = slots at h ⊢
  induction slots with
  | nil => exact ⟨[], rfl, rfl, by simp⟩
  | cons slot rest ih =>
      obtain ⟨result, world, rfl, hend⟩ := h slot List.mem_cons_self
      obtain ⟨results, hresults, hlength, hall⟩ :=
        ih fun slot hslot => h slot (List.mem_cons_of_mem _ hslot)
      refine ⟨(result, world) :: results, ?_, by simp [hlength], ?_⟩
      · simp [List.mapM_cons, Slot.result?, hresults]
      · intro entry hentry
        rcases List.mem_cons.mp hentry with rfl | hentry
        · exact hend
        · exact hall entry hentry

theorem results?_getElem? {t : Timeline φ ρ} {results : List (ρ × World)}
    (h : t.results? = some results) (k : Ticket) :
    results[k]? = t.slots[k]?.bind Slot.result? := by
  rw [results?] at h
  generalize t.slots = slots at h ⊢
  induction slots generalizing results k with
  | nil =>
      obtain rfl := Option.some.inj h
      rfl
  | cons slot rest ih =>
      rw [List.mapM_cons] at h
      obtain ⟨result, hresult, h⟩ := Option.bind_eq_some_iff.mp h
      obtain ⟨others, hothers, h⟩ := Option.bind_eq_some_iff.mp h
      obtain rfl := Option.some.inj h
      cases k with
      | zero => exact hresult.symm
      | succ k => exact ih k hothers

theorem complete_of_results {world : World} {jobs : List (Job φ ρ)} {ties : Ties}
    {t : Timeline φ ρ} {results : List (ρ × World)}
    (ht : (ofJobs world jobs ties).run (patience * ((jobs.length + 1) * (jobs.length + 1))) = t)
    (h : t.results? = some results) :
    complete world jobs ties = some (results, { t.world with agenda := [] }) := by
  subst ht
  rw [complete]
  simp only [h, Option.map_some]

end Timeline

end BearerAuth
