import BearerAuth.Proofs.Timeline.Inevitable

/-!
# The next step

`Timeline.step?` takes whoever paused only briefly, then the head of the line, and the earliest
event when nobody is in line (`step?_cases`).  A cancellation is next when it is the first of all
and no alarm is earlier; an alarm is next when it is the first of all and earlier than all
cancellations.  Alarms are never alike: each was set at a turn of its own (`Dated`), so when ties
are broken by an order of timers (`Ties.IsOrder`), which is the first of them does not depend on
how they are listed (`first_alarm`).
-/

namespace BearerAuth

namespace Timeline

/-! ## Events -/

section

variable {φ ρ : Type} {t : Timeline φ ρ}

theorem event?_eq_cancellation {c : Cancellation} : t.event? = some (.cancellation c) ↔
    ¬ t.slots.all Slot.hasEnded = true ∧
      first? (fun a b : Cancellation => decide (a.instant < b.instant)) t.world.agenda = some c ∧
      ∀ a ∈ alarmsFrom 0 t.jobs t.slots, c.instant ≤ a.instant := by
  rw [event?]
  by_cases hall : t.slots.all Slot.hasEnded = true
  · simp [hall]
  rw [if_neg hall]
  cases hc : first? (fun a b : Cancellation => decide (a.instant < b.instant)) t.world.agenda with
  | none =>
      cases ha : first? (Alarm.precedes t.ties) (alarmsFrom 0 t.jobs t.slots) with
      | none => simp [earlier?]
      | some a => simp [earlier?]
  | some d =>
      cases ha : first? (Alarm.precedes t.ties) (alarmsFrom 0 t.jobs t.slots) with
      | none => simp [earlier?, hall, first?_eq_none ha]
      | some a =>
          rw [earlier?]
          constructor
          · intro h
            split at h
            · cases h
            · next hle =>
                cases h
                refine ⟨hall, rfl, fun b hb => ?_⟩
                exact Int.le_trans (Int.not_lt.mp hle) (first?_le ha b hb)
          · rintro ⟨-, hd, hle⟩
            obtain rfl := Option.some.inj hd
            rw [if_neg (Int.not_lt.mpr (hle a (first?_mem ha)))]

theorem event?_eq_alarm {a : Alarm} : t.event? = some (.alarm a) ↔
    ¬ t.slots.all Slot.hasEnded = true ∧
      first? (Alarm.precedes t.ties) (alarmsFrom 0 t.jobs t.slots) = some a ∧
      ∀ c ∈ t.world.agenda, a.instant < c.instant := by
  rw [event?]
  by_cases hall : t.slots.all Slot.hasEnded = true
  · simp [hall]
  rw [if_neg hall]
  cases ha : first? (Alarm.precedes t.ties) (alarmsFrom 0 t.jobs t.slots) with
  | none =>
      cases hc : first? (fun a b : Cancellation => decide (a.instant < b.instant))
          t.world.agenda with
      | none => simp [earlier?]
      | some c => simp [earlier?]
  | some b =>
      cases hc : first? (fun a b : Cancellation => decide (a.instant < b.instant))
          t.world.agenda with
      | none => simp [earlier?, hall, first?_eq_none hc]
      | some c =>
          rw [earlier?]
          constructor
          · intro h
            split at h
            · next hlt =>
                cases h
                refine ⟨hall, rfl, fun d hd => ?_⟩
                exact Int.lt_of_lt_of_le hlt (earliest_of_first? hc d hd)
            · cases h
          · rintro ⟨-, hb, hlt⟩
            obtain rfl := Option.some.inj hb
            rw [if_pos (hlt c (first?_mem hc))]

theorem restsUntil_cancellation {c : Cancellation} (hline : t.line = [])
    (h : t.event? = some (.cancellation c)) : t.RestsUntil c.instant := by
  obtain ⟨-, hfirst, halarms⟩ := event?_eq_cancellation.mp h
  exact ⟨hline, halarms, earliest_of_first? hfirst⟩

theorem restsUntil_alarm {a : Alarm} (hline : t.line = []) (h : t.event? = some (.alarm a)) :
    t.RestsUntil a.instant := by
  obtain ⟨-, hfirst, hagenda⟩ := event?_eq_alarm.mp h
  exact ⟨hline, first?_le hfirst, fun c hc => Int.le_of_lt (hagenda c hc)⟩

/-! ## Steps -/

/-- What the next step is: the turn of whoever paused only briefly; or that of the head of the
line; or, when nobody is in it, what the next event does. -/
theorem step?_cases {t' : Timeline φ ρ} (h : t.step? = some t') :
    (∃ a, t.brief? = some a ∧ Next (some a.ticket) t t') ∨
      (t.brief? = none ∧ ∃ i rest, t.line = i :: rest ∧ Next (some i) t t') ∨
      (t.brief? = none ∧ t.line = [] ∧ ∃ c, t.event? = some (.cancellation c) ∧
        t' = t.cancel c) ∨
      t.brief? = none ∧ t.line = [] ∧ ∃ a, t.event? = some (.alarm a) ∧
        Next (some a.ticket) (t.passTo a.instant) t' := by
  cases hbrief : t.brief? with
  | some a =>
      obtain ⟨ha, hdue⟩ := brief?_mem hbrief
      rw [step?_brief hbrief] at h
      obtain rfl := Option.some.inj h
      exact .inl ⟨a, rfl, .alarm ha hdue⟩
  | none =>
      cases hline : t.line with
      | cons i rest =>
          rw [step?_head hbrief hline] at h
          obtain rfl := Option.some.inj h
          exact .inr (.inl ⟨rfl, i, rest, rfl, .turn (hline ▸ List.mem_cons_self)⟩)
      | nil =>
          rw [step?_event hbrief hline, Option.map_eq_some_iff] at h
          obtain ⟨event, hevent, rfl⟩ := h
          cases event with
          | cancellation c => exact .inr (.inr (.inl ⟨rfl, rfl, c, hevent, rfl⟩))
          | alarm a =>
              obtain ⟨-, hfirst, -⟩ := event?_eq_alarm.mp hevent
              have hnext := Next.alarm (t := t.passTo a.instant) (first?_mem hfirst)
                (Int.le_max_right _ _)
              rw [leaveLine_passTo hline] at hnext
              exact .inr (.inr (.inr ⟨rfl, rfl, a, hevent, hnext⟩))

theorem line_of_done (h : t.step? = none) : t.line = [] := by
  cases hbrief : t.brief? with
  | some a =>
      rw [step?_brief hbrief] at h
      cases h
  | none =>
      cases hline : t.line with
      | nil => rfl
      | cons i rest =>
          rw [step?_head hbrief hline] at h
          cases h

theorem prompt_passTo {instant : Instant} (h : t.RestsUntil instant) :
    Prompt none t (t.passTo instant) := by
  refine ⟨.passage t instant, fun _ hlt => ?_⟩
  have heq : (t.passTo instant).world.now = instant :=
    Int.max_eq_right (Int.not_lt.mp fun hle => Int.lt_irrefl _
      (Int.lt_of_lt_of_le hlt (Int.max_le.mpr ⟨Int.le_refl _, Int.le_of_lt hle⟩)))
  rw [heq]
  exact h

theorem step?_promptly {start t' : Timeline φ ρ} {turns : Nat} (h : Promptly start turns t)
    (hstep : t.step? = some t') : ∃ turns', Promptly start turns' t' := by
  rcases step?_cases hstep with ⟨a, -, hnext⟩ | ⟨-, i, rest, -, hnext⟩ |
    ⟨-, hline, c, hevent, rfl⟩ | ⟨-, hline, a, hevent, hnext⟩
  · exact ⟨_, .turn h ⟨hnext, nofun⟩⟩
  · exact ⟨_, .turn h ⟨hnext, nofun⟩⟩
  · obtain ⟨-, hfirst, -⟩ := event?_eq_cancellation.mp hevent
    have hpassed := Promptly.pass h (prompt_passTo (restsUntil_cancellation hline hevent))
    refine ⟨_, .pass hpassed ⟨?_, fun _ hlt => ?_⟩⟩
    · have hnext := Next.cancellation (t := t.passTo c.instant) (first?_mem hfirst)
        (Int.le_max_right _ _)
      rwa [passTo_cancel] at hnext
    · exact absurd hlt (Int.lt_irrefl _)
  · exact ⟨_, .turn (.pass h (prompt_passTo (restsUntil_alarm hline hevent))) ⟨hnext, nofun⟩⟩

theorem run_promptly (fuel : Nat) {start : Timeline φ ρ} {turns : Nat}
    (h : Promptly start turns t) : ∃ turns', Promptly start turns' (t.run fuel) := by
  induction fuel generalizing t turns with
  | zero => exact ⟨turns, h⟩
  | succ fuel ih =>
      rw [run]
      cases hstep : t.step? with
      | none => exact ⟨turns, h⟩
      | some t' =>
          obtain ⟨turns', h'⟩ := step?_promptly h hstep
          exact ih h'

theorem run_succ (n : Nat) (t : Timeline φ ρ) :
    t.run (n + 1) = ((t.run n).step?).getD (t.run n) := by
  rw [run_add, run]
  cases (t.run n).step? with
  | none => rfl
  | some t' => rfl

/-- Two runs that have come to their end have come to the same. -/
theorem run_eq_of_done {m n : Nat} {start : Timeline φ ρ} {t : Timeline φ ρ}
    (hm : (start.run m).step? = none) (hn : start.run n = t) (hdone : t.step? = none) :
    start.run m = t := by
  have hstays {t : Timeline φ ρ} (hdone : t.step? = none) (more : Nat) : t.run more = t := by
    cases more with
    | zero => rfl
    | succ more => rw [run, hdone]
  have hfirst := hstays hm n
  have hsecond := hstays hdone m
  rw [← run_add] at hfirst
  rw [← hn, ← run_add, Nat.add_comm] at hsecond
  rw [← hfirst, hsecond, hn]

theorem work_early {job : Job φ ρ} {w : World} (h : w.now < job.begins) (turn : Nat)
    (since : Option Nat) : work turn job w (.idle since) = (.idle (some turn), w) := by
  simp only [work, if_pos h]

theorem work_begin {job : Job φ ρ} {w : World} (h : ¬ w.now < job.begins) (turn : Nat)
    (since : Option Nat) :
    work turn job w (.idle since) = (.after turn (job.start w), (job.start w).2) := by
  simp only [work, if_neg h]

theorem after_ne_idle (turn : Nat) (stretch : Stretch φ ρ) (since : Option Nat) :
    Slot.after turn stretch ≠ .idle since := by
  obtain ⟨progress, w⟩ := stretch
  cases progress with
  | done result => exact nofun
  | paused phase wait => exact nofun

theorem Next.begun {label : Option Ticket} {t' : Timeline φ ρ} (h : Next label t t')
    {k : Ticket} {since : Option Nat} (hk : t'.slots[k]? = some (.idle since)) :
    ∃ since, t.slots[k]? = some (.idle since) := by
  rcases h.slots_cases k with hsame | rfl
  · exact ⟨since, hsame ▸ hk⟩
  · have hturned := h.turned
    cases hturned with
    | nobody => exact ⟨since, hk⟩
    | @somebody job slot slot' w' hjob hslot _ hwork =>
        have hset : (t.slots.set k slot')[k]? = some slot' :=
          List.getElem?_set_self (List.getElem?_eq_some_iff.mp hslot).1
        obtain rfl := Option.some.inj (hset.symm.trans hk)
        cases slot with
        | idle since' => exact ⟨since', hslot⟩
        | waiting phase wait since' =>
            rw [work] at hwork
            obtain ⟨hafter, -⟩ := Prod.mk.inj hwork
            exact absurd hafter (after_ne_idle _ _ _)
        | ended result world => cases hwork

theorem Begins.begun {t' : Timeline φ ρ} {i : Ticket} {job : Job φ ρ} (h : Begins i t t')
    (hjob : t.jobs[i]? = some job) (since : Option Nat) :
    t'.slots[i]? ≠ some (.idle since) := by
  obtain ⟨since', hslot⟩ := h.idle
  have hdue : ¬ t.world.now < job.begins := Int.not_lt.mpr (h.due job hjob)
  have hwork := work_begin hdue t.turn since'
  rw [h.next.eq_takeTurn, @takeTurn_eq _ _ (t.leaveLine i) i job _ hjob hslot]
  show (t.slots.set i (work t.turn job t.world (.idle since')).1)[i]? ≠ _
  rw [hwork, List.getElem?_set_self (List.getElem?_eq_some_iff.mp hslot).1]
  exact fun heq => after_ne_idle t.turn _ since (Option.some.inj heq)

theorem Reaches.ended {t' : Timeline φ ρ} (h : Reaches t t') {k : Ticket} {result : ρ} {w : World}
    (hk : t.slots[k]? = some (.ended result w)) : t'.slots[k]? = some (.ended result w) :=
  h.invariant (I := fun t => t.slots[k]? = some (.ended result w)) hk
    fun hk hnext => hnext.ended hk

theorem Reaches.idle {t' : Timeline φ ρ} (h : Reaches t t') {k : Ticket} {since : Option Nat}
    (hk : t'.slots[k]? = some (.idle since)) : ∃ since, t.slots[k]? = some (.idle since) := by
  induction h generalizing since with
  | refl => exact ⟨since, hk⟩
  | tail _ hnext ih =>
      obtain ⟨label, hnext⟩ := hnext
      obtain ⟨since', hk'⟩ := hnext.begun hk
      exact ih hk'

theorem Reaches.slots_length {t' : Timeline φ ρ} (h : Reaches t t') :
    t'.slots.length = t.slots.length :=
  h.invariant (I := fun t' => t'.slots.length = t.slots.length) rfl
    fun hsame hnext => hnext.slots_length.trans hsame

theorem Reaches.jobs_eq {t' : Timeline φ ρ} (h : Reaches t t') : t'.jobs = t.jobs :=
  h.invariant (I := fun t' => t'.jobs = t.jobs) rfl fun hsame hnext => hnext.jobs_eq.trans hsame

theorem Reaches.ties_eq {t' : Timeline φ ρ} (h : Reaches t t') : t'.ties = t.ties :=
  h.invariant (I := fun t' => t'.ties = t.ties) rfl fun hsame hnext => hnext.ties_eq.trans hsame

theorem jobs_length_run (world : World) (jobs : List (Job φ ρ)) (ties : Ties) (n : Nat) :
    ((ofJobs world jobs ties).run n).jobs.length =
      ((ofJobs world jobs ties).run n).slots.length := by
  have hreaches := run_reaches n (ofJobs world jobs ties)
  rw [hreaches.jobs_eq, hreaches.slots_length, ofJobs, List.length_map]

theorem run_reaches_of_le {m n : Nat} (h : m ≤ n) (t : Timeline φ ρ) :
    Reaches (t.run m) (t.run n) := by
  obtain ⟨more, rfl⟩ := Nat.exists_eq_add_of_le h
  rw [run_add]
  exact run_reaches more _

/-! ## When timers were set -/

/-- The turn at which a job set its timer, or paused. -/
def since? : Slot φ ρ → Option Nat
  | .idle since => since
  | .waiting _ _ since => some since
  | .ended _ _ => none

/-- No two jobs paused at the same turn, and all turns are over. -/
structure Dated (t : Timeline φ ρ) : Prop where
  earlier : ∀ {k : Ticket} {slot : Slot φ ρ} {since : Nat}, t.slots[k]? = some slot →
    since? slot = some since → since < t.turn
  once : ∀ {i k : Ticket} {slot slot' : Slot φ ρ} {since : Nat}, t.slots[i]? = some slot →
    t.slots[k]? = some slot' → since? slot = some since → since? slot' = some since → i = k

theorem work_since {turn : Nat} {job : Job φ ρ} {w : World} {slot : Slot φ ρ} {since : Nat}
    (h : since? (work turn job w slot).1 = some since) : since = turn := by
  have hafter (stretch : Stretch φ ρ) (h : since? (Slot.after turn stretch) = some since) :
      since = turn := by
    obtain ⟨progress, w'⟩ := stretch
    cases progress with
    | done result => cases h
    | paused phase wait => exact (Option.some.inj h).symm
  cases slot with
  | idle since' =>
      simp only [work] at h
      split at h
      · exact (Option.some.inj h).symm
      · exact hafter _ h
  | waiting phase wait since' => exact hafter _ h
  | ended result world => cases h

theorem Dated.takeTurn (h : Dated t) (i : Ticket) : Dated (t.takeTurn i) := by
  cases hjob : t.jobs[i]? with
  | none => rwa [takeTurn_of_none (.inl hjob)]
  | some job =>
      cases hslot : t.slots[i]? with
      | none => rwa [takeTurn_of_none (.inr hslot)]
      | some slot =>
          rw [takeTurn_eq hjob hslot]
          constructor
          · intro k slot' since hk hsince
            show since < t.turn + 1
            rcases getElem?_set_cases hk with ⟨-, rfl⟩ | ⟨-, hk⟩
            · rw [work_since hsince]
              exact Nat.lt_succ_self _
            · exact Nat.lt_succ_of_lt (h.earlier hk hsince)
          · intro k l slot₁ slot₂ since hk hl hsince hsince'
            rcases getElem?_set_cases hk with ⟨hki, hslot₁⟩ | ⟨-, hold⟩
            · rw [← hslot₁] at hsince
              rcases getElem?_set_cases hl with ⟨hli, -⟩ | ⟨-, hold'⟩
              · rw [hki, hli]
              · have hlt := h.earlier hold' hsince'
                rw [work_since hsince] at hlt
                exact absurd hlt (Nat.lt_irrefl _)
            · rcases getElem?_set_cases hl with ⟨-, hslot₂⟩ | ⟨-, hold'⟩
              · rw [← hslot₂] at hsince'
                have hlt := h.earlier hold hsince
                rw [work_since hsince'] at hlt
                exact absurd hlt (Nat.lt_irrefl _)
              · exact h.once hold hold' hsince hsince'

theorem first?_minimal {α : Type} {precedes : α → α → Bool}
    (hasymm : ∀ {a b}, precedes a b = true → ¬ precedes b a = true)
    (hbetween : ∀ {a b c}, precedes a c = true → precedes a b = true ∨ precedes b c = true)
    {l : List α} {a : α} (h : first? precedes l = some a) :
    ∀ b ∈ l, ¬ precedes b a = true := by
  refine first?_stands ?_ hasymm ?_ h
  · intro a hself
    exact hasymm hself hself
  · intro a b c hnot hc hprecedes
    rcases hbetween hprecedes with hca | hab
    · exact hc hca
    · exact hnot hab

/-- What is asked of the order of timers: it tells apart any two of one instant that were set for
different jobs at different turns. -/
structure Ties.IsOrder (ties : Ties) : Prop where
  asymm : ∀ {a b : Alarm}, ties a b = true → ¬ ties b a = true
  /-- Whatever is put between two timers comes after the one or before the other. -/
  between : ∀ {a b c : Alarm}, ties a c = true → ties a b = true ∨ ties b c = true
  total : ∀ {a b : Alarm}, a.since ≠ b.since → a.ticket ≠ b.ticket →
    ties a b = true ∨ ties b a = true

theorem precedes_iff {ties : Ties} {a b : Alarm} : a.precedes ties b = true ↔
    a.instant < b.instant ∨ a.instant = b.instant ∧ ties a b = true := by
  simp [Alarm.precedes]

theorem first?_alarm {ties : Ties} (hties : ties.IsOrder) {alarms : List Alarm} {a : Alarm}
    (h : first? (Alarm.precedes ties) alarms = some a) :
    ∀ b ∈ alarms, ¬ b.precedes ties a = true := by
  refine first?_minimal ?_ ?_ h
  · intro a b hab hba
    rw [precedes_iff] at hab hba
    rcases hab with hlt | ⟨heq, hfirst⟩
    · rcases hba with hlt' | ⟨heq', -⟩
      · exact Int.lt_asymm hlt hlt'
      · exact Int.lt_irrefl _ (heq' ▸ hlt)
    · rcases hba with hlt' | ⟨-, hfirst'⟩
      · exact Int.lt_irrefl _ (heq ▸ hlt')
      · exact hties.asymm hfirst hfirst'
  · intro a b c hac
    rw [precedes_iff] at hac
    rw [precedes_iff, precedes_iff]
    rcases hac with hlt | ⟨heq, hfirst⟩
    · rcases Int.lt_or_le a.instant b.instant with hab | hba
      · exact .inl (.inl hab)
      · exact .inr (.inl (Int.lt_of_le_of_lt hba hlt))
    · rcases Int.lt_trichotomy a.instant b.instant with hlt | hab | hlt
      · exact .inl (.inl hlt)
      · exact (hties.between hfirst).imp (fun h => .inr ⟨hab, h⟩)
          (fun h => .inr ⟨hab.symm.trans heq, h⟩)
      · exact .inr (.inl (heq ▸ hlt))

theorem mem_alarms {a : Alarm} : a ∈ alarmsFrom 0 t.jobs t.slots ↔
    ∃ job slot, t.jobs[a.ticket]? = some job ∧ t.slots[a.ticket]? = some slot ∧
      alarm? a.ticket job slot = some a := by
  rw [mem_alarmsFrom]
  constructor
  · rintro ⟨i, job, slot, hjob, hslot, halarm⟩
    rw [Nat.zero_add] at halarm
    obtain rfl := alarm?_ticket halarm
    exact ⟨job, slot, hjob, hslot, halarm⟩
  · rintro ⟨job, slot, hjob, hslot, halarm⟩
    exact ⟨a.ticket, job, slot, hjob, hslot, by rwa [Nat.zero_add]⟩

theorem alarm?_since {k : Ticket} {job : Job φ ρ} {slot : Slot φ ρ} {a : Alarm}
    (h : alarm? k job slot = some a) : since? slot = some a.since := by
  cases slot with
  | idle since =>
      obtain ⟨turn, rfl, rfl⟩ := Option.map_eq_some_iff.mp h
      rfl
  | waiting phase wait since =>
      obtain ⟨instant, -, rfl⟩ := Option.map_eq_some_iff.mp h
      rfl
  | ended result world => cases h

theorem Dated.alarm_eq (h : Dated t) {a b : Alarm} (ha : a ∈ alarmsFrom 0 t.jobs t.slots)
    (hb : b ∈ alarmsFrom 0 t.jobs t.slots) (heq : a.since = b.since ∨ a.ticket = b.ticket) :
    a = b := by
  obtain ⟨job, slot, hjob, hslot, halarm⟩ := mem_alarms.mp ha
  obtain ⟨job', slot', hjob', hslot', halarm'⟩ := mem_alarms.mp hb
  have hticket : a.ticket = b.ticket := by
    rcases heq with hsince | hticket
    · have hdated := alarm?_since halarm
      rw [hsince] at hdated
      exact h.once hslot hslot' hdated (alarm?_since halarm')
    · exact hticket
  rw [← hticket, hjob] at hjob'
  rw [← hticket, hslot] at hslot'
  obtain rfl := Option.some.inj hjob'
  obtain rfl := Option.some.inj hslot'
  rw [← hticket] at halarm'
  exact Option.some.inj (halarm.symm.trans halarm')

theorem Dated.first_alarm (h : Dated t) (hties : t.ties.IsOrder) {a : Alarm}
    (ha : a ∈ alarmsFrom 0 t.jobs t.slots)
    (hmin : ∀ b ∈ alarmsFrom 0 t.jobs t.slots, ¬ b.precedes t.ties a = true) :
    first? (Alarm.precedes t.ties) (alarmsFrom 0 t.jobs t.slots) = some a := by
  cases hfirst : first? (Alarm.precedes t.ties) (alarmsFrom 0 t.jobs t.slots) with
  | none =>
      rw [first?_eq_none hfirst] at ha
      cases ha
  | some d =>
      have hd := first?_mem hfirst
      have hnot := hmin d hd
      have hnot' := first?_alarm hties hfirst a ha
      rw [precedes_iff, not_or, not_and] at hnot hnot'
      have hinstant : d.instant = a.instant :=
        Int.le_antisymm (Int.not_lt.mp hnot'.1) (Int.not_lt.mp hnot.1)
      refine congrArg some (h.alarm_eq hd ha ?_)
      by_cases hsince : d.since = a.since
      · exact .inl hsince
      by_cases hticket : d.ticket = a.ticket
      · exact .inr hticket
      rcases hties.total hsince hticket with hbefore | hafter
      · exact absurd hbefore (hnot.2 hinstant)
      · exact absurd hafter (hnot'.2 hinstant.symm)

end

end Timeline

end BearerAuth
