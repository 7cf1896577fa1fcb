import BearerAuth.Proofs.Grant.Turn
import BearerAuth.Proofs.Timeline.Brief

/-!
# Callers of a grant on a timeline

Several callers of a grant take their turns on a timeline.  In a turn one of them comes too early,
has nothing left to do, or does a stretch of work (`Taken`), which is one of those in `Turn`.  Two
things can be seen of a step from outside: that a token request is handed to the transport
(`Hands`), and that the reply to one comes (`Answers`).  `Course` puts all this together, for steps
of any kind (`Peopled.course`).
-/

namespace BearerAuth

open Transport Timeline

namespace Acquire

/-- The callers on a timeline. -/
def crowd (base : Transport) (place : Nat) (callers : List (Instant × Caller)) :
    List (Job (Phase base.Phase) Result) :=
  callers.map fun entry => job base place entry.1 entry.2

/-- Every caller has its position for its ticket. -/
def Ticketed (callers : List (Instant × Caller)) : Prop :=
  ∀ (i : Ticket) (entry : Instant × Caller), callers[i]? = some entry → entry.2.ticket = i

/-- Where a caller stands that has begun and not ended. -/
def phaseOf {φ : Type} : Slot (Phase φ) Result → Option (Phase φ)
  | .waiting phase _ _ => some phase
  | _ => none

/-- What a caller takes up when its turn comes: it begins, unless it is too early, or goes on from
the phase that it paused in. -/
inductive TakesUp {φ : Type} (begins now : Instant) :
    Slot (Phase φ) Result → Option (Phase φ) → Prop
  | beginning {since : Option Nat} : begins ≤ now → TakesUp begins now (.idle since) none
  | phase {phase : Phase φ} {wait : Wait} {since : Nat} :
      TakesUp begins now (.waiting phase wait since) (some phase)

section

variable {base : Transport} {place : Nat} {caller : Caller} {callers : List (Instant × Caller)}
  {begins : Instant} {w : World} {g : Grant} {before : Option (Phase base.Phase)}
  {slot : Slot (Phase base.Phase) Result} {t t' : Timeline (Phase base.Phase) Result}
  {i k : Ticket}

theorem TakesUp.phaseOf_eq {now : Instant} (h : TakesUp begins now slot before) :
    phaseOf slot = before := by
  cases h <;> rfl

theorem TakesUp.unique {now : Instant} {before' : Option (Phase base.Phase)}
    (h : TakesUp begins now slot before) (h' : TakesUp begins now slot before') :
    before' = before :=
  h'.phaseOf_eq.symm.trans h.phaseOf_eq

theorem TakesUp.running {now : Instant} (h : TakesUp begins now slot before) :
    slot.hasEnded = false := by
  cases h <;> rfl

theorem work_takesUp (turn : Nat) (h : TakesUp begins w.now slot before) :
    work turn (job base place begins caller) w slot =
      (.after turn (turnFrom base place caller before w),
        (turnFrom base place caller before w).2) := by
  cases h with
  | @beginning since hdue =>
      exact @work_begin _ _ (job base place begins caller) w (Int.not_lt.mpr hdue) turn since
  | phase => rfl

theorem turnFrom_brisk (hbrisk : base.Brisk) (place : Nat) (caller : Caller)
    (before : Option (Phase base.Phase)) (w : World) :
    (turnFrom base place caller before w).Brisk := by
  have hfinish (reply : Reply) (w : World) :
      (finish place reply w : Stretch (Phase base.Phase) _).Brisk :=
    Stretch.brisk_done _ _
  have hstart (w : World) : (start base place caller w).Brisk := by
    rw [start]
    split
    · exact Stretch.brisk_done _ _
    · split
      · exact Stretch.brisk_yield _ _
      · exact (hbrisk.start _ _ _ _).andThen hfinish
  cases before with
  | none => exact hstart w
  | some phase =>
      cases phase with
      | fetching phase => exact (hbrisk.resume _ _ _).andThen hfinish
      | joining seen =>
          simp only [turnFrom, resume, await]
          split
          · exact Stretch.brisk_paused _ _ rfl
          · exact Stretch.brisk_yield _ _
      | awaiting seen => exact Stretch.brisk_yield _ _
      | returning ending =>
          cases ending with
          | abandoned => exact hstart w
          | refreshed => exact Stretch.brisk_done _ _
          | failed failure => exact Stretch.brisk_done _ _
          | canceled => exact Stretch.brisk_done _ _
          | timedOut => exact Stretch.brisk_done _ _

theorem job_brisk (hbrisk : base.Brisk) (place : Nat) (begins : Instant) (caller : Caller) :
    (job base place begins caller).Brisk where
  start := turnFrom_brisk hbrisk place caller none
  resume phase := turnFrom_brisk hbrisk place caller (some phase)

/-! ## Turns on a timeline -/

/-- What the turn of a ticket comes to. -/
inductive Taken (base : Transport) (place : Nat) (callers : List (Instant × Caller))
    (t : Timeline (Phase base.Phase) Result) (i : Ticket) :
    Timeline (Phase base.Phase) Result → Prop
  | nobody : callers[i]? = none ∨ t.slots[i]? = none → i ∈ t.line →
      Taken base place callers t i (t.leaveLine i)
  /-- It is too early: the caller sets its timer. -/
  | early {entry : Instant × Caller} {since : Option Nat} : callers[i]? = some entry →
      t.slots[i]? = some (.idle since) → t.world.now < entry.1 → since = none ∨ i ∈ t.line →
      Taken base place callers t i
        (t.turned i (job base place entry.1 entry.2) (.idle (some t.turn)) t.world)
  | spent {entry : Instant × Caller} {result : Result} {world : World} : callers[i]? = some entry →
      t.slots[i]? = some (.ended result world) → i ∈ t.line →
      Taken base place callers t i
        (t.turned i (job base place entry.1 entry.2) (.ended result world) t.world)
  | works {entry : Instant × Caller} {slot : Slot (Phase base.Phase) Result}
      {before : Option (Phase base.Phase)} : callers[i]? = some entry → t.slots[i]? = some slot →
      TakesUp entry.1 t.world.now slot before →
      (i ∈ t.line ∨ ∃ a, alarm? i (job base place entry.1 entry.2) slot = some a ∧
        a.instant ≤ t.world.now) →
      Taken base place callers t i
        (t.turned i (job base place entry.1 entry.2)
          (.after t.turn (turnFrom base place entry.2 before t.world))
          (turnFrom base place entry.2 before t.world).2)

/-- The callers are on the timeline, with the grant at its place. -/
structure Peopled (base : Transport) (place : Nat) (callers : List (Instant × Caller)) (g : Grant)
    (t : Timeline (Phase base.Phase) Result) : Prop where
  jobs : t.jobs = crowd base place callers
  grant : t.world.grants[place]? = some g

theorem crowd_getElem? (k : Ticket) : (crowd base place callers)[k]? =
    callers[k]?.map fun entry => job base place entry.1 entry.2 :=
  List.getElem?_map

theorem cancellation?_eq_some {caller : Caller} {now : Instant} {c : Cancellation}
    (h : caller.cancellation? now = some c) :
    caller.cancelAt = some c.instant ∧ c.ticket = caller.ticket := by
  rw [Caller.cancellation?] at h
  split at h
  · cases h
  · next instant hinstant =>
      split at h
      · cases h
      · obtain rfl := Option.some.inj h
        exact ⟨hinstant, rfl⟩

/-- On a timeline on which nobody has begun the cancellations to come are those of the callers. -/
theorem cancellation_ofJobs (htickets : Ticketed callers) {now : Instant} {c : Cancellation}
    (hc : c ∈ (crowd base place callers).filterMap fun job => job.caller.cancellation? now) :
    ∃ entry, callers[c.ticket]? = some entry ∧ entry.2.cancelAt = some c.instant := by
  obtain ⟨job, hjob, hc⟩ := List.mem_filterMap.mp hc
  obtain ⟨entry, hin, rfl⟩ := List.mem_map.mp hjob
  obtain ⟨k, hk⟩ := List.mem_iff_getElem?.mp hin
  obtain ⟨hcancelAt, hticket⟩ := cancellation?_eq_some hc
  refine ⟨entry, ?_, hcancelAt⟩
  rw [hticket]
  exact (htickets k entry hk).symm ▸ hk

theorem taken_of_turned (hjobs : t.jobs = crowd base place callers) (h : Turned t i t') :
    Taken base place callers t i t' := by
  cases h with
  | nobody hnone hline =>
      refine .nobody (hnone.imp_left fun hjob => ?_) hline
      rwa [hjobs, crowd_getElem?, Option.map_eq_none_iff] at hjob
  | @somebody job' slot slot' w' hjob hslot hcalled hwork =>
      rw [hjobs, crowd_getElem?, Option.map_eq_some_iff] at hjob
      obtain ⟨entry, hentry, rfl⟩ := hjob
      have hworks {before : Option (Phase base.Phase)}
          (htakes : TakesUp entry.1 t.world.now slot before) :
          Taken base place callers t i
            (t.turned i (job base place entry.1 entry.2) slot' w') := by
        rw [work_takesUp _ htakes] at hwork
        obtain ⟨rfl, rfl⟩ := Prod.mk.inj hwork
        exact .works hentry hslot htakes hcalled
      cases slot with
      | idle since =>
          by_cases hearly : t.world.now < entry.1
          · rw [@work_early _ _ (job base place entry.1 entry.2) _ hearly] at hwork
            obtain ⟨rfl, rfl⟩ := Prod.mk.inj hwork
            refine .early hentry hslot hearly ?_
            rcases hcalled with hline | ⟨a, halarm, hdue⟩
            · exact .inr hline
            · cases since with
              | none => exact .inl rfl
              | some since =>
                  obtain rfl := Option.some.inj halarm
                  exact absurd hdue (Int.not_le.mpr hearly)
          · exact hworks (.beginning (Int.not_lt.mp hearly))
      | waiting phase wait since => exact hworks .phase
      | ended result world =>
          obtain ⟨rfl, rfl⟩ := Prod.mk.inj hwork
          refine .spent hentry hslot ?_
          rcases hcalled with hline | ⟨a, halarm, -⟩
          · exact hline
          · cases halarm

theorem Peopled.job_eq (h : Peopled base place callers g t) {entry : Instant × Caller}
    (hentry : callers[i]? = some entry) : t.jobs[i]? = some (job base place entry.1 entry.2) := by
  rw [h.jobs, crowd_getElem?, hentry]
  rfl

theorem Peopled.taken (h : Peopled base place callers g t) (hnext : Next (some i) t t') :
    Taken base place callers t i t' :=
  taken_of_turned h.jobs hnext.turned

theorem turned_slot {job : Job (Phase base.Phase) Result}
    {slot slot' : Slot (Phase base.Phase) Result} {w' : World} (hslot : t.slots[i]? = some slot) :
    (t.turned i job slot' w').slots[i]? = some slot' :=
  List.getElem?_set_self (List.getElem?_eq_some_iff.mp hslot).1

theorem turned_slot_ne {job : Job (Phase base.Phase) Result}
    {slot' : Slot (Phase base.Phase) Result} {w' : World} (h : k ≠ i) :
    (t.turned i job slot' w').slots[k]? = t.slots[k]? :=
  List.getElem?_set_ne (Ne.symm h)

/-- The callers stay on the timeline, with whatever has become of the grant. -/
theorem Peopled.turned (h : Peopled base place callers g t) {job : Job (Phase base.Phase) Result}
    {slot' : Slot (Phase base.Phase) Result} {w' : World} {g' : Grant}
    (hg' : w'.grants[place]? = some g') :
    Peopled base place callers g' (t.turned i job slot' w') where
  jobs := h.jobs
  grant := hg'

/-! ## Hand-overs and answers -/

/-- In a step a caller hands a token request to the transport. -/
def Hands (place : Nat) (callers : List (Instant × Caller)) (label : Option Ticket)
    (t : Timeline (Phase base.Phase) Result) (exchange : Exchange) : Prop :=
  ∃ i entry slot before, label = some i ∧ callers[i]? = some entry ∧ t.slots[i]? = some slot ∧
    TakesUp entry.1 t.world.now slot before ∧
    Fetches (t.world.grant place) t.world.now before ∧
    exchange = tokenExchange (t.world.grant place) t.world.now

/-- In a step a caller has the reply to its token request. -/
def Answers (base : Transport) (place : Nat) (callers : List (Instant × Caller))
    (label : Option Ticket) (t : Timeline (Phase base.Phase) Result) (reply : Reply) : Prop :=
  ∃ i entry slot before, label = some i ∧ callers[i]? = some entry ∧ t.slots[i]? = some slot ∧
    TakesUp entry.1 t.world.now slot before ∧ Replied base place entry.2 t.world before reply

/-! ## Steps -/

/-- In a step nobody does any work: callers stay in their phases, and grants and exchanges as they
are. -/
structure Idles (t t' : Timeline (Phase base.Phase) Result) : Prop where
  jobs : t'.jobs = t.jobs
  phases : ∀ k : Ticket, t'.slots[k]?.bind phaseOf = t.slots[k]?.bind phaseOf
  now : t.world.now ≤ t'.world.now
  sent : t'.world.sent = t.world.sent
  grants : t'.world.grants = t.world.grants

/-- What a step comes to: nobody does any work, or one caller does what `Turn` says. -/
inductive Course (base : Transport) (place : Nat) (callers : List (Instant × Caller)) (g : Grant)
    (t : Timeline (Phase base.Phase) Result) : Option Ticket → Option Exchange → Option Reply →
      Timeline (Phase base.Phase) Result → Prop
  | idles {label : Option Ticket} {t' : Timeline (Phase base.Phase) Result} : Idles t t' →
      Course base place callers g t label none none t'
  | works {i : Ticket} {entry : Instant × Caller} {slot : Slot (Phase base.Phase) Result}
      {before : Option (Phase base.Phase)} {exchange? : Option Exchange} {reply? : Option Reply}
      {stretch : Stretch (Phase base.Phase) Result} : callers[i]? = some entry →
      t.slots[i]? = some slot → TakesUp entry.1 t.world.now slot before →
      Turn base place entry.2 t.world g before exchange? reply? stretch →
      Course base place callers g t (some i) exchange? reply?
        (t.turned i (job base place entry.1 entry.2) (.after t.turn stretch) stretch.2)

/-- The turn of a caller that keeps its phase. -/
theorem idles_turned {job : Job (Phase base.Phase) Result}
    {slot' : Slot (Phase base.Phase) Result} (hslot : t.slots[i]? = some slot)
    (hphase : phaseOf slot' = phaseOf slot) : Idles t (t.turned i job slot' t.world) where
  jobs := rfl
  phases k := by
    by_cases heq : k = i
    · subst heq
      rw [turned_slot hslot, hslot]
      exact hphase
    · rw [turned_slot_ne heq]
  now := Int.le_refl _
  sent := rfl
  grants := rfl

theorem Peopled.idles (h : Peopled base place callers g t) (hidles : Idles t t') :
    Peopled base place callers g t' where
  jobs := hidles.jobs.trans h.jobs
  grant := hidles.grants ▸ h.grant

/-- In a step that is nobody's work no token request is handed over, and none has its answer. -/
theorem Idles.course (hidles : Idles t t') {label : Option Ticket}
    (hnobody : ∀ i entry slot before, label = some i → callers[i]? = some entry →
      t.slots[i]? = some slot → ¬ TakesUp entry.1 t.world.now slot before) :
    ∃ exchange? reply?, Course base place callers g t label exchange? reply? t' ∧
      (∀ exchange, Hands place callers label t exchange ↔ exchange? = some exchange) ∧
      ∀ reply, Answers base place callers label t reply ↔ reply? = some reply := by
  refine ⟨none, none, .idles hidles, fun exchange => ⟨?_, nofun⟩, fun reply => ⟨?_, nofun⟩⟩
  · rintro ⟨i, entry, slot, before, hi, hentry, hslot, htakes, -⟩
    exact absurd htakes (hnobody i entry slot before hi hentry hslot)
  · rintro ⟨i, entry, slot, before, hi, hentry, hslot, htakes, -⟩
    exact absurd htakes (hnobody i entry slot before hi hentry hslot)

/-- **Every step has a course**, and what can be seen of it is what the course says. -/
theorem Peopled.course (h : Peopled base place callers g t) {label : Option Ticket}
    (hnext : Next label t t') :
    ∃ exchange? reply?, Course base place callers g t label exchange? reply? t' ∧
      (∀ exchange, Hands place callers label t exchange ↔ exchange? = some exchange) ∧
      ∀ reply, Answers base place callers label t reply ↔ reply? = some reply := by
  cases label with
  | none =>
      refine Idles.course ?_ fun _ _ _ _ hi => by cases hi
      cases hnext with
      | passage => exact ⟨rfl, fun _ => rfl, Int.le_max_left _ _, rfl, rfl⟩
      | cancellation => exact ⟨rfl, fun _ => rfl, Int.le_max_left _ _, rfl, rfl⟩
  | some i =>
      cases h.taken hnext with
      | nobody hnone hline =>
          refine Idles.course ?_ ?_
          · exact ⟨rfl, fun _ => rfl, Int.le_refl _, rfl, rfl⟩
          · rintro _ entry slot before ⟨⟩ hentry hslot
            exact absurd hnone (not_none_or hentry hslot)
      | early hentry hslot hearly _ =>
          refine Idles.course ?_ ?_
          · exact idles_turned hslot rfl
          · rintro _ entry' slot' before ⟨⟩ hentry' hslot' htakes
            obtain rfl := Option.some.inj (hentry.symm.trans hentry')
            obtain rfl := Option.some.inj (hslot.symm.trans hslot')
            cases htakes with
            | beginning hdue => exact absurd hdue (Int.not_le.mpr hearly)
      | spent hentry hslot _ =>
          refine Idles.course ?_ ?_
          · exact idles_turned hslot rfl
          · rintro _ entry' slot' before ⟨⟩ - hslot' htakes
            obtain rfl := Option.some.inj (hslot.symm.trans hslot')
            cases htakes
      | @works entry slot before hentry hslot htakes _ =>
          obtain ⟨exchange?, reply?, hturn⟩ :=
            turnFrom_turn entry.2 h.grant before
          refine ⟨exchange?, reply?, .works hentry hslot htakes hturn, fun exchange => ?_,
            fun reply => ?_⟩
          · rw [← hturn.fetches_iff exchange, ← grant_eq h.grant]
            constructor
            · rintro ⟨_, entry', slot', before', ⟨⟩, hentry', hslot', htakes', hfetches, heq⟩
              obtain rfl := Option.some.inj (hentry.symm.trans hentry')
              obtain rfl := Option.some.inj (hslot.symm.trans hslot')
              exact ⟨htakes'.unique htakes ▸ hfetches, heq⟩
            · rintro ⟨hfetches, heq⟩
              exact ⟨i, entry, slot, before, rfl, hentry, hslot, htakes, hfetches, heq⟩
          · rw [← hturn.replied_iff h.grant reply]
            constructor
            · rintro ⟨_, entry', slot', before', ⟨⟩, hentry', hslot', htakes', hreplied⟩
              obtain rfl := Option.some.inj (hentry.symm.trans hentry')
              obtain rfl := Option.some.inj (hslot.symm.trans hslot')
              exact htakes'.unique htakes ▸ hreplied
            · intro hreplied
              exact ⟨i, entry, slot, before, rfl, hentry, hslot, htakes, hreplied⟩

end

end Acquire

end BearerAuth
