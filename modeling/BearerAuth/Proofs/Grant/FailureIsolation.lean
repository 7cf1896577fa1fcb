import BearerAuth.Proofs.Grant.Crowd
import BearerAuth.Proofs.Grant.Fault
import Mathlib.Data.List.Nodup

/-!
# Callers do not suffer for each other's impatience

Callers of one grant take their turns in any order, while they are canceled, run out of
time and get answers at any moments.  Whoever stands in the queue is called to a turn
because something was published, because it was canceled or because its own time is up
(`Fair`), so it ends with a failure for a reason of its own, or for one that concerns
everybody (`failures_stay_apart`).
-/

namespace BearerAuth

open Transport Timeline

namespace Acquire

/-! ## Being called to a turn -/

theorem canceled_later {caller : Caller} {w w' : World} (h : w.canceled caller = true)
    (hnow : w.now ≤ w'.now) (hagenda : ∀ c ∈ w'.agenda, c ∈ w.agenda) :
    w'.canceled caller = true := by
  simp only [World.canceled, Bool.and_eq_true, Bool.not_eq_true', List.any_eq_false] at h ⊢
  obtain ⟨hcome, hnone⟩ := h
  refine ⟨?_, fun c hc => hnone c (hagenda c hc)⟩
  rw [Caller.canceled] at hcome ⊢
  split
  · next hnever =>
      rw [hnever] at hcome
      cases hcome
  · next instant hinstant =>
      rw [hinstant] at hcome
      exact decide_eq_true (Int.le_trans (of_decide_eq_true hcome) hnow)

theorem expired_later {caller : Caller} {now now' : Instant} (h : caller.expired now = true)
    (hnow : now ≤ now') : caller.expired now' = true := by
  rw [Caller.expired] at h ⊢
  split
  · next hnever =>
      rw [hnever] at h
      cases h
  · next deadline hdeadline =>
      rw [hdeadline] at h
      exact decide_eq_true (Int.le_trans (of_decide_eq_true h) hnow)

section

variable {base : Transport} {mine : Caller → base.Phase → Prop} {place : Nat}
  {callers : List (Instant × Caller)} {t t' : Timeline (Phase base.Phase) Result}

/-- Grants that have not fewer publications. -/
def Continues (place : Nat) (w w' : World) : Prop :=
  ∀ g, w.grants[place]? = some g →
    ∃ g', w'.grants[place]? = some g' ∧ g.published ≤ g'.published

theorem Continues.of_eq {w w' : World} (h : w'.grants = w.grants) : Continues place w w' :=
  fun _ hg => ⟨_, h ▸ hg, Nat.le_refl _⟩

theorem Overtaken.later {seen : Nat} {w w' : World} (h : Overtaken place seen w)
    (hgrant : Continues place w w') : Overtaken place seen w' := by
  obtain ⟨g, hg, hlt⟩ := h
  obtain ⟨g', hg', hle⟩ := hgrant _ hg
  exact ⟨g', hg', Nat.lt_of_lt_of_le hlt hle⟩

theorem Due.later {caller : Caller} {seen : Nat} {w w' : World} (h : Due place caller seen w)
    (hnow : w.now ≤ w'.now) (hagenda : ∀ c ∈ w'.agenda, c ∈ w.agenda)
    (hgrant : Continues place w w') : Due place caller seen w' := by
  rcases h with hovertaken | hcanceled | hexpired
  · exact .inl (hovertaken.later hgrant)
  · exact .inr (.inl (canceled_later hcanceled hnow hagenda))
  · exact .inr (.inr (expired_later hexpired hnow))

theorem Stands.later {caller : Caller} {phase : Phase base.Phase} {w w' : World}
    (h : Stands mine place caller phase w) (hnow : w.now ≤ w'.now)
    (hagenda : ∀ c ∈ w'.agenda, c ∈ w.agenda) (hgrant : Continues place w w') :
    Stands mine place caller phase w' := by
  have hseen {seen : Nat} (h : ∃ g, w.grants[place]? = some g ∧ seen ≤ g.published) :
      ∃ g, w'.grants[place]? = some g ∧ seen ≤ g.published := by
    obtain ⟨g, hg, hle⟩ := h
    obtain ⟨g', hg', hle'⟩ := hgrant _ hg
    exact ⟨g', hg', Nat.le_trans hle hle'⟩
  cases phase with
  | fetching phase => exact h
  | joining seen => exact hseen h
  | awaiting seen => exact hseen h
  | returning ending =>
      cases ending with
      | refreshed => exact trivial
      | failed failure => exact h
      | abandoned => exact trivial
      | canceled => exact canceled_later h hnow hagenda
      | timedOut => exact expired_later h hnow

/-! ## What holds at any time -/

/-- The cancellations to come are those of the callers, each of which is canceled once;
phases and waits are as callers left them; and whoever waits for a publication and is in
line has been called to its turn. -/
structure Fair (base : Transport) (mine : Caller → base.Phase → Prop) (place : Nat)
    (callers : List (Instant × Caller)) (t : Timeline (Phase base.Phase) Result) : Prop where
  peopled : ∃ g, Peopled base place callers g t ∧ g.Linked
  released : t.world.released = []
  agenda : ∀ {c}, c ∈ t.world.agenda →
    ∃ entry, callers[c.ticket]? = some entry ∧ entry.2.cancelAt = some c.instant
  once : (t.world.agenda.map Cancellation.ticket).Nodup
  nodup : t.line.Nodup
  stands : ∀ {i : Ticket} {entry : Instant × Caller} {phase wait since},
    callers[i]? = some entry → t.slots[i]? = some (.waiting phase wait since) →
    Stands mine place entry.2 phase t.world
  waits : ∀ {i : Ticket} {entry : Instant × Caller} {seen wait since},
    callers[i]? = some entry → t.slots[i]? = some (.waiting (.awaiting seen) wait since) →
    Overtaken place seen t.world ∨
      wait = { timer := entry.2.deadline, cancel := entry.2.cancelAt }
  due : ∀ {i : Ticket} {entry : Instant × Caller} {seen wait since}, i ∈ t.line →
    callers[i]? = some entry → t.slots[i]? = some (.waiting (.awaiting seen) wait since) →
    Due place entry.2 seen t.world

/-! ## Turns -/

/-- A turn that serves the others keeps everything fair. -/
theorem Fair.turned (h : Fair base mine place callers t) {i : Ticket}
    {entry : Instant × Caller} {slot slot' : Slot (Phase base.Phase) Result} {w' : World}
    (hentry : callers[i]? = some entry) (hslot : t.slots[i]? = some slot)
    (hserves : Serves place t.world w')
    (hstands : ∀ {phase wait since}, slot' = .waiting phase wait since →
      Stands mine place entry.2 phase w')
    (hwaits : ∀ {seen wait since}, slot' = .waiting (.awaiting seen) wait since →
      Overtaken place seen w' ∨ wait = { timer := entry.2.deadline, cancel := entry.2.cancelAt } ∧
        w'.released = t.world.released) :
    Fair base mine place callers (t.turned i (job base place entry.1 entry.2) slot' w') := by
  obtain ⟨g, hpeopled, hlinked⟩ := h.peopled
  obtain ⟨g', hg', hlinked', hle, hreleased⟩ := hserves.grant hpeopled.grant hlinked
  have hnow : t.world.now ≤ w'.now := Int.le_of_eq hserves.now.symm
  have hagenda : ∀ c ∈ w'.agenda, c ∈ t.world.agenda := fun c hc => hserves.agenda ▸ hc
  have hgrant : Continues place t.world w' := by
    intro g₁ hg₁
    obtain rfl := Option.some.inj (hpeopled.grant.symm.trans hg₁)
    exact ⟨g', hg', hle⟩
  have hcleared : Continues place w' { w' with released := [] } := .of_eq rfl
  refine ⟨⟨g', hpeopled.turned hg', hlinked'⟩, rfl, fun hc => h.agenda (hagenda _ hc), ?_,
    nodup_join _ (h.nodup.erase i), ?_, ?_, ?_⟩
  · show (w'.agenda.map Cancellation.ticket).Nodup
    rw [hserves.agenda]
    exact h.once
  · intro k entry' phase wait since hentry' hk
    rcases getElem?_set_cases hk with ⟨rfl, hslot'⟩ | ⟨-, hk⟩
    · obtain rfl := Option.some.inj (hentry.symm.trans hentry')
      exact (hstands hslot').later (Int.le_refl _) (fun _ hc => hc) hcleared
    · exact (h.stands hentry' hk).later hnow hagenda hgrant
  · intro k entry' seen wait since hentry' hk
    rcases getElem?_set_cases hk with ⟨rfl, hslot'⟩ | ⟨-, hk⟩
    · obtain rfl := Option.some.inj (hentry.symm.trans hentry')
      exact (hwaits hslot').imp id And.left
    · exact (h.waits hentry' hk).imp (fun hovertaken => hovertaken.later hgrant) id
  · intro k entry' seen wait since hin hentry' hk
    rcases getElem?_set_cases hk with ⟨rfl, rfl⟩ | ⟨hne, hk⟩
    · -- In the queue it is in line only because it is canceled.
      obtain rfl := Option.some.inj (hentry.symm.trans hentry')
      rcases hwaits rfl with hovertaken | ⟨-, hreleased⟩
      · exact .inl hovertaken
      · have hsummoned := (mem_join.mp hin).resolve_left h.nodup.not_mem_erase
        simp only [summoned, hreleased, h.released, List.nil_append] at hsummoned
        split at hsummoned
        · next hcanceled => exact .inr (.inl (Bool.and_eq_true_iff.mp hcanceled).2)
        · cases hsummoned
    · rcases mem_join.mp hin with hin | hsummoned
      · exact (h.due (List.mem_of_mem_erase hin) hentry' hk).later hnow hagenda hgrant
      · rcases List.mem_append.mp hsummoned with hreleased' | hself
        · -- It was released, so something was published.
          rcases hreleased with hsame | hpublished
          · rw [hsame, h.released] at hreleased'
            cases hreleased'
          · obtain ⟨g₁, hg₁, hseen⟩ := h.stands hentry' hk
            obtain rfl := Option.some.inj (hpeopled.grant.symm.trans hg₁)
            exact .inl ⟨g', hg', Nat.lt_of_le_of_lt hseen hpublished⟩
        · split at hself
          · exact absurd (List.mem_singleton.mp hself) hne
          · cases hself

theorem Fair.later (h : Fair base mine place callers t) (hjobs : t'.jobs = t.jobs)
    (hslots : t'.slots = t.slots) (hreleased : t'.world.released = t.world.released)
    (hgrants : t'.world.grants = t.world.grants) (hnow : t.world.now ≤ t'.world.now)
    (hagenda : t'.world.agenda.Sublist t.world.agenda) (hnodup : t'.line.Nodup)
    (hline : ∀ {i : Ticket} {entry : Instant × Caller} {seen wait since}, i ∈ t'.line →
      i ∉ t.line → callers[i]? = some entry →
      t.slots[i]? = some (.waiting (.awaiting seen) wait since) →
      Due place entry.2 seen t'.world) : Fair base mine place callers t' where
  peopled := by
    obtain ⟨g, hpeopled, hlinked⟩ := h.peopled
    exact ⟨g, ⟨hjobs.trans hpeopled.jobs, hgrants ▸ hpeopled.grant⟩, hlinked⟩
  released := hreleased.trans h.released
  agenda := fun hc => h.agenda (hagenda.subset hc)
  once := (hagenda.map _).nodup h.once
  nodup := hnodup
  stands := fun hentry hk => (h.stands hentry (hslots ▸ hk)).later hnow
    (fun c hc => hagenda.subset hc) (.of_eq hgrants)
  waits := fun hentry hk => (h.waits hentry (hslots ▸ hk)).imp
    (fun hovertaken => hovertaken.later (.of_eq hgrants)) id
  due := by
    intro i entry seen wait since hin hentry hk
    by_cases hold : i ∈ t.line
    · exact (h.due hold hentry (hslots ▸ hk)).later hnow (fun c hc => hagenda.subset hc)
        (.of_eq hgrants)
    · exact hline hin hold hentry (hslots ▸ hk)

theorem Fair.cancel (htickets : Ticketed callers) (h : Fair base mine place callers t)
    {c : Cancellation} (hc : c ∈ t.world.agenda) :
    Fair base mine place callers (t.cancel c) := by
  have hline : (t.cancel c).line = t.line ∨ (t.cancel c).line = join t.line [c.ticket] := by
    rw [Timeline.cancel]
    simp only
    split
    · exact .inr rfl
    · exact .inl rfl
  refine h.later rfl rfl rfl rfl (Int.le_max_left _ _) List.erase_sublist ?_ ?_
  · rcases hline with hline | hline
    · exact hline ▸ h.nodup
    · exact hline ▸ nodup_join _ h.nodup
  · intro i entry seen wait since hin hold hentry _
    have hi : i = c.ticket := by
      rcases hline with hline | hline
      · exact absurd (hline ▸ hin) hold
      · exact List.mem_singleton.mp ((mem_join.mp (hline ▸ hin)).resolve_left hold)
    subst hi
    obtain ⟨entry', hentry', hcancelAt⟩ := h.agenda hc
    obtain rfl := Option.some.inj (hentry.symm.trans hentry')
    refine .inr (.inl ?_)
    have hgone : ∀ c' ∈ t.world.agenda.erase c, c'.ticket ≠ c.ticket := by
      intro c' hc' hsame
      obtain ⟨hne, hin'⟩ := (List.Nodup.mem_erase_iff (.of_map _ h.once)).mp hc'
      exact hne (List.inj_on_of_nodup_map h.once hin' hc hsame)
    have hticket := htickets _ _ hentry
    simp only [World.canceled, Timeline.cancel, Bool.and_eq_true, Bool.not_eq_true',
      List.any_eq_false, beq_iff_eq, hticket]
    refine ⟨?_, hgone⟩
    simp only [Caller.canceled, hcancelAt]
    exact decide_eq_true (Int.le_max_right _ _)

theorem Fair.due_of_alarm (h : Fair base mine place callers t) {i : Ticket}
    {entry : Instant × Caller} {seen : Nat} {wait : Wait} {since : Nat} {a : Alarm}
    (hentry : callers[i]? = some entry)
    (hslot : t.slots[i]? = some (.waiting (.awaiting seen) wait since))
    (halarm : alarm? i (job base place entry.1 entry.2)
      (.waiting (.awaiting seen) wait since : Slot (Phase base.Phase) Result) = some a)
    (hnow : a.instant ≤ t.world.now) : Due place entry.2 seen t.world := by
  obtain ⟨instant, htimer, rfl⟩ := Option.map_eq_some_iff.mp halarm
  rcases h.waits hentry hslot with hovertaken | rfl
  · exact .inl hovertaken
  · refine .inr (.inr ?_)
    rw [Caller.expired]
    split
    · next hnever =>
        rw [hnever] at htimer
        cases htimer
    · next deadline hdeadline =>
        obtain rfl := Option.some.inj (hdeadline.symm.trans htimer)
        exact decide_eq_true hnow

/-! ## Runs -/

/-- Why a caller has ended with a failure: there was a turn in which it did, for a reason. -/
def Blamed (base : Transport) (place : Nat) (start : Timeline (Phase base.Phase) Result)
    (i : Ticket) (entry : Instant × Caller) (failure : Failure) (w : World) : Prop :=
  ∃ t t' slot before, Reaches start t ∧ Next (some i) t t' ∧ t.slots[i]? = some slot ∧
    TakesUp entry.1 t.world.now slot before ∧ t'.slots[i]? = some (.ended (.error failure) w) ∧
    Fault base place entry.2 t.world w before failure

/-- A caller in the queue is called to its turn for a reason. -/
theorem Fair.due_of_called (h : Fair base mine place callers t) {i : Ticket}
    {entry : Instant × Caller} {slot : Slot (Phase base.Phase) Result} {seen : Nat}
    (hentry : callers[i]? = some entry) (hslot : t.slots[i]? = some slot)
    (htakes : TakesUp entry.1 t.world.now slot (some (.awaiting seen)))
    (hcalled : i ∈ t.line ∨ ∃ a, alarm? i (job base place entry.1 entry.2) slot = some a ∧
      a.instant ≤ t.world.now) : Due place entry.2 seen t.world := by
  cases htakes
  rcases hcalled with hline | ⟨a, halarm, hnow⟩
  · exact h.due hline hentry hslot
  · exact h.due_of_alarm hentry hslot halarm hnow

/-- The work of a caller keeps everything fair, and is to blame if the caller fails in it. -/
theorem Fair.works (hcandid : base.CandidIn mine) (h : Fair base mine place callers t)
    {i : Ticket} {entry : Instant × Caller} {slot : Slot (Phase base.Phase) Result}
    {before : Option (Phase base.Phase)} (hentry : callers[i]? = some entry)
    (hslot : t.slots[i]? = some slot) (htakes : TakesUp entry.1 t.world.now slot before)
    (hcalled : i ∈ t.line ∨ ∃ a, alarm? i (job base place entry.1 entry.2) slot = some a ∧
      a.instant ≤ t.world.now) {stretch : Stretch (Phase base.Phase) Result}
    (hstretch : stretch = turnFrom base place entry.2 before t.world) :
    Fair base mine place callers
        (t.turned i (job base place entry.1 entry.2) (.after t.turn stretch) stretch.2) ∧
      ∀ {failure : Failure} {w : World},
        Slot.after t.turn stretch = .ended (.error failure) w →
        Fault base place entry.2 t.world w before failure := by
  obtain ⟨g, hpeopled, hlinked⟩ := h.peopled
  have hstands : ∀ phase, before = some phase → Stands mine place entry.2 phase t.world := by
    rintro phase rfl
    cases htakes
    exact h.stands hentry hslot
  have hdue : ∀ seen, before = some (.awaiting seen) → Due place entry.2 seen t.world := by
    rintro seen rfl
    exact h.due_of_called hentry hslot htakes hcalled
  have hseen : ∀ seen, before = some (.joining seen) → seen ≤ g.published := by
    rintro seen rfl
    obtain ⟨g', hg', hle⟩ := hstands _ rfl
    obtain rfl := Option.some.inj (hpeopled.grant.symm.trans hg')
    exact hle
  have hkeeps := turnFrom_faults hcandid hpeopled.grant hlinked hstands hdue
  have hawaits := @turnFrom_awaits base place entry.2 g t.world before hpeopled.grant hseen
  rw [← hstretch] at hkeeps hawaits
  obtain ⟨progress, w'⟩ := stretch
  obtain ⟨hserves, hend⟩ := hkeeps
  cases progress with
  | done result =>
      refine ⟨h.turned hentry hslot hserves nofun nofun, fun hended => ?_⟩
      cases hended
      exact hend _ rfl
  | paused phase wait =>
      refine ⟨h.turned hentry hslot hserves ?_ ?_, nofun⟩
      · rintro _ _ _ ⟨⟩
        exact hend
      · rintro _ _ _ ⟨⟩
        exact hawaits rfl

/-- A turn of any caller keeps everything fair, and is to blame if that ends in it. -/
theorem Fair.taken (hcandid : base.CandidIn mine) (h : Fair base mine place callers t)
    {i : Ticket} (htaken : Taken base place callers t i t') :
    Fair base mine place callers t' ∧
      ∀ {entry : Instant × Caller} {failure : Failure} {w : World}, callers[i]? = some entry →
        t'.slots[i]? = some (.ended (.error failure) w) →
        t.slots[i]? = some (.ended (.error failure) w) ∨
          ∃ slot before, t.slots[i]? = some slot ∧ TakesUp entry.1 t.world.now slot before ∧
            Fault base place entry.2 t.world w before failure := by
  cases htaken with
  | nobody hslot hline =>
      refine ⟨h.later rfl rfl rfl rfl (Int.le_refl _) (.refl _) (h.nodup.erase i) ?_,
        fun _ hended => .inl hended⟩
      exact fun hin hold => absurd (List.mem_of_mem_erase hin) hold
  | early hentry hslot hearly hcalled =>
      refine ⟨h.turned hentry hslot (.refl _) nofun nofun, fun _ hended => ?_⟩
      rw [turned_slot hslot] at hended
      cases hended
  | spent hentry hslot hline =>
      refine ⟨h.turned hentry hslot (.refl _) nofun nofun, fun _ hended => .inl ?_⟩
      rw [turned_slot hslot] at hended
      exact hslot.trans hended
  | @works entry slot before hentry hslot htakes hcalled =>
      obtain ⟨hfair, hfault⟩ := h.works hcandid hentry hslot htakes hcalled rfl
      refine ⟨hfair, fun hentry' hended => ?_⟩
      obtain rfl := Option.some.inj (hentry.symm.trans hentry')
      rw [turned_slot hslot] at hended
      exact .inr ⟨slot, before, hslot, htakes, hfault (Option.some.inj hended)⟩

/-- Every step keeps everything fair. -/
theorem Fair.next (hcandid : base.CandidIn mine) (htickets : Ticketed callers)
    (h : Fair base mine place callers t) {label : Option Ticket} (hnext : Next label t t') :
    Fair base mine place callers t' := by
  obtain ⟨g, hpeopled, -⟩ := h.peopled
  cases label with
  | some i => exact (h.taken hcandid (hpeopled.taken hnext)).1
  | none =>
      cases hnext with
      | passage _ instant =>
          exact h.later rfl rfl rfl rfl (Int.le_max_left _ _) (.refl _) h.nodup
            fun hin hold => absurd hin hold
      | cancellation hc _ => exact h.cancel htickets hc

theorem nodup_tickets (htickets : Ticketed callers) :
    (callers.map fun entry => entry.2.ticket).Nodup := by
  have hrange : callers.map (fun entry => entry.2.ticket) = List.range callers.length := by
    refine List.ext_getElem (by simp) fun k hk _ => ?_
    simp only [List.length_map] at hk
    simp [htickets k callers[k] (List.getElem?_eq_getElem hk)]
  rw [hrange]
  exact List.nodup_range

theorem agenda_sublist (now : Instant) (callers : List (Instant × Caller)) :
    (((crowd base place callers).filterMap fun job => job.caller.cancellation? now).map
      Cancellation.ticket).Sublist (callers.map fun entry => entry.2.ticket) := by
  induction callers with
  | nil => exact .slnil
  | cons entry rest ih =>
      simp only [crowd, List.map_cons, List.filterMap_cons] at ih ⊢
      split
      · exact ih.cons _
      · next c hc =>
          rw [List.map_cons, (cancellation?_eq_some hc).2]
          exact ih.cons_cons _

theorem Fair.first {world : World} {ties : Ties} {g : Grant}
    (hgrant : world.grants[place]? = some g) (hlinked : g.Linked) (hreleased : world.released = [])
    (htickets : Ticketed callers) :
    Fair base mine place callers (ofJobs world (crowd base place callers) ties) := by
  have hidle {i : Ticket} {slot : Slot (Phase base.Phase) Result}
      (hslot : (ofJobs world (crowd base place callers) ties).slots[i]? = some slot) :
      slot = .idle none := (ofJobs_slots_iff.mp hslot).1
  refine ⟨⟨g, ⟨rfl, hgrant⟩, hlinked⟩, hreleased, ?_, ?_, List.nodup_range, ?_, ?_, ?_⟩
  · intro c hc
    exact cancellation_ofJobs htickets hc
  · exact (agenda_sublist world.now callers).nodup (nodup_tickets htickets)
  · intro i entry phase wait since _ hslot
    cases hidle hslot
  · intro i entry seen wait since _ hslot
    cases hidle hslot
  · intro i entry seen wait since _ _ hslot
    cases hidle hslot

theorem blamed_of_ended (hcandid : base.CandidIn mine) (htickets : Ticketed callers)
    {start : Timeline (Phase base.Phase) Result} (hfirst : Fair base mine place callers start)
    (hreach : Reaches start t) {i : Ticket} {entry : Instant × Caller}
    (hentry : callers[i]? = some entry) {failure : Failure} {w : World}
    (hrunning : start.slots[i]? ≠ some (.ended (.error failure) w))
    (hended : t.slots[i]? = some (.ended (.error failure) w)) :
    Blamed base place start i entry failure w := by
  have hall : Fair base mine place callers t ∧ Reaches start t ∧
      (t.slots[i]? = some (.ended (.error failure) w) →
        Blamed base place start i entry failure w) := by
    refine hreach.invariant (I := fun t => Fair base mine place callers t ∧ Reaches start t ∧
      (t.slots[i]? = some (.ended (.error failure) w) → _))
      ⟨hfirst, .refl, fun hslot => absurd hslot hrunning⟩ ?_
    rintro label t₁ t₂ ⟨hfair, hreach₁, hold⟩ hnext
    refine ⟨hfair.next hcandid htickets hnext, hreach₁.trans hnext.reaches, fun hended => ?_⟩
    rcases hnext.slots_cases i with hsame | rfl
    · exact hold (hsame ▸ hended)
    · obtain ⟨g, hpeopled, -⟩ := hfair.peopled
      obtain ⟨-, hblame⟩ := hfair.taken hcandid (hpeopled.taken hnext)
      rcases hblame hentry hended with hbefore | ⟨slot, before, hslot, htakes, hfault⟩
      · exact hold hbefore
      · exact ⟨t₁, t₂, slot, before, hreach₁, hnext, hslot, htakes, hended, hfault⟩
  exact hall.2.2 hended

/-- **Callers fail for reasons of their own, or for one that concerns them all.**  In any
order of turns, cancellations, deadlines and answers, a caller that ends as canceled was
canceled itself.  And in the turn in which a caller ended, a timeout was due to its own
deadline or was the reply to its own token request; and when it had no reply of its own in
it, then it had been canceled or had run out of time while it waited, or it had the failure
from a publication, and that was no abandonment. -/
theorem failures_stay_apart (hcandid : base.Candid) (htickets : Ticketed callers)
    {world : World} {credentials : Credentials} {ties : Ties}
    (hfresh : world.grants[place]? = some { credentials }) (hreleased : world.released = [])
    (hreach : Reaches (ofJobs world (crowd base place callers) ties) t) {i : Ticket}
    {entry : Instant × Caller} (hentry : callers[i]? = some entry) {failure : Failure}
    {w : World} (hended : t.slots[i]? = some (.ended (.error failure) w)) :
    (failure.reason = .canceled → w.canceled entry.2 = true) ∧
    ∃ u u' slot before, Reaches (ofJobs world (crowd base place callers) ties) u ∧
      Next (some i) u u' ∧ u.slots[i]? = some slot ∧ TakesUp entry.1 u.world.now slot before ∧
      u'.slots[i]? = some (.ended (.error failure) w) ∧
      (failure.reason = .timeout → entry.2.expired w.now = true ∨
        Replied base place entry.2 u.world before (.error failure)) ∧
      ((∀ reply, ¬ Replied base place entry.2 u.world before reply) →
        failure = canceledWhileWaiting ∧ w.canceled entry.2 = true ∨
        failure = deadlineWhileWaiting ∧ entry.2.expired w.now = true ∨
        before = some (.returning (.failed failure)) ∧ (failure.reason = .connection ∨
          failure.reason = .protocol ∨ failure.reason = .credentials)) := by
  obtain ⟨mine, hcandid⟩ := hcandid
  have hfirst : Fair base mine place callers (ofJobs world (crowd base place callers) ties) :=
    .first hfresh rfl hreleased htickets
  have hrunning : (ofJobs world (crowd base place callers) ties).slots[i]? ≠
      some (.ended (.error failure) w) := by
    intro hslot
    cases (ofJobs_slots_iff.mp hslot).1
  obtain ⟨u, u', slot, before, hu, hnext, hslot, htakes, hended', hfault⟩ :=
    blamed_of_ended hcandid htickets hfirst hreach hentry hrunning hended
  exact ⟨hfault.of_canceled, u, u', slot, before, hu, hnext, hslot, htakes, hended',
    hfault.of_timeout, hfault.of_unreplied⟩

end

/-! ## A caller that does not wait for the answer -/

/-- A peer that refuses after a while. -/
def refusingPeer : Peer := fun _ _ =>
  .ok { delay := 10, reply := .error ⟨.connection, utf8 "refused"⟩ }

/-- The second caller has less time than the answer to the first one takes. -/
def impatientCallers : List (Instant × Caller) :=
  [(0, { ticket := 0 }), (1, { ticket := 1, deadline := some 5 })]

def impatientCrowd : Timeline (Phase (wire refusingPeer).Phase) Result :=
  ofJobs { grants := [{ credentials := { tokenUrl := {} } }] }
    (crowd (wire refusingPeer) 0 impatientCallers)

theorem impatient_caller_fails_alone :
    ∃ failure w u u' slot before,
      (impatientCrowd.run 9).slots[1]? = some (.ended (.error failure) w) ∧
      failure.reason = .timeout ∧ Reaches impatientCrowd u ∧ Next (some 1) u u' ∧
      u.slots[1]? = some slot ∧ TakesUp 1 u.world.now slot before ∧
      u'.slots[1]? = some (.ended (.error failure) w) ∧
      (Caller.expired { ticket := 1, deadline := some 5 } w.now = true ∨
        Replied (wire refusingPeer) 0 { ticket := 1, deadline := some 5 } u.world before
          (.error failure)) := by
  have hcandid : (wire refusingPeer).Candid := by
    refine wire_candid (fun _ _ _ => nofun) fun _ _ _ failure hdelivery hreply => ?_
    obtain rfl := Except.ok.inj hdelivery
    obtain rfl := Except.error.inj hreply
    exact nofun
  have htickets : Ticketed impatientCallers := by
    intro i entry hentry
    match i with
    | 0 =>
        obtain rfl := Option.some.inj hentry
        rfl
    | 1 =>
        obtain rfl := Option.some.inj hentry
        rfl
    | _ + 2 => cases hentry
  have hentry : impatientCallers[1]? = some (1, { ticket := 1, deadline := some 5 }) := rfl
  obtain ⟨w, hended⟩ : ∃ w, (impatientCrowd.run 9).slots[1]? =
      some (.ended (.error deadlineWhileWaiting) w) := ⟨_, rfl⟩
  obtain ⟨-, u, u', slot, before, hu, hnext, hslot, htakes, hended', htimeout, -⟩ :=
    failures_stay_apart hcandid htickets rfl rfl (run_reaches 9 impatientCrowd) hentry hended
  exact ⟨_, w, u, u', slot, before, hended, rfl, hu, hnext, hslot, htakes, hended', htimeout rfl⟩

end Acquire

end BearerAuth
