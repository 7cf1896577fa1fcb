import BearerAuth.Proofs.Grant.Beside
import BearerAuth.Proofs.Grant.Orderly

/-!
# Waiting for another's fetch

A caller that begins while another fetches stands by (`Watching`): it comes to the queue, and waits
in it.  What others do does not change that as long as the fetch goes on.  When the caller's own
cancellation or deadline comes before the end of the fetch (`GivesUp`), the caller settles for its
failure (`Settled`), on a run (`Watching.step`) as in any order of turns in which nobody is kept
waiting (`Watching.prompt`).  In none of its turns it leaves a trace (`Watching.unseen`).
-/

namespace BearerAuth

open Transport Timeline

namespace Acquire

/-- At a moment at which a caller begins another's token request is under way, and the caller's own
cancellation or deadline comes before the end of the other's pause: before the answer to the
request, or before the other gives the request up. -/
structure GivesUp {peer : Peer} (t : Timeline (Phase (wire peer).Phase) Result) (f : Ticket)
    (caller : Caller) (ends own : Instant) : Prop where
  fetches : ∃ reply wait since, t.slots[f]? = some (.waiting (.fetching reply) wait since) ∧
    wait.ends = some ends
  /-- Nothing has ended the pause yet. -/
  uncalled : f ∉ t.line
  leaves : caller.cancelAt = some own ∨ caller.deadline = some own
  early : own < ends

section

variable {peer : Peer} {place : Nat} {callers : List (Instant × Caller)} {g g' : Grant}
  {t t' t'' : Timeline (Phase (wire peer).Phase) Result} {f p i k : Ticket} {ends own : Instant}
  {entry : Instant × Caller} {exchange? : Option Exchange} {reply? : Option Reply}
  {slot slot' : Slot (Phase (wire peer).Phase) Result}

/-! ## Waiting for another's fetch -/

/-- How a caller stands by: it comes to the queue, or is in it and its own time comes at an
instant. -/
inductive StandsBy (place : Nat) (p : Ticket) (own : Instant)
    (t : Timeline (Phase (wire peer).Phase) Result) : Prop
  | joining {wait : Wait} {since : Nat} {instant : Instant} :
      t.slots[p]? = some (.waiting (.joining (t.world.grant place).published) wait since) →
      wait.brief = true → wait.timer = some instant → instant ≤ t.world.now →
      StandsBy place p own t
  | awaiting {wait : Wait} {since : Nat} :
      t.slots[p]? = some (.waiting (.awaiting (t.world.grant place).published) wait since) →
      (p ∈ t.line ∨ wait.timer = some own ∨ ⟨own, p⟩ ∈ t.world.agenda ∧ wait.cancel.isSome = true) →
      StandsBy place p own t

/-- A caller stands by while another fetches. -/
structure Watching (place : Nat) (f p : Ticket) (ends own : Instant)
    (t : Timeline (Phase (wire peer).Phase) Result) : Prop where
  fetches : ∃ reply wait since, t.slots[f]? = some (.waiting (.fetching reply) wait since) ∧
    wait.ends = some ends
  uncalled : f ∉ t.line
  standsBy : StandsBy place p own t

/-- A caller has stopped waiting for another's fetch, and does not fetch itself. -/
inductive Settled (p : Ticket) (t : Timeline (Phase (wire peer).Phase) Result) : Prop
  | returning {ending : Ending} {wait : Wait} {since : Nat} : ending ≠ .abandoned →
      t.slots[p]? = some (.waiting (.returning ending) wait since) → wait.brief = true →
      Settled p t
  | ended {result : Result} {world : World} : t.slots[p]? = some (.ended result world) →
      Settled p t

theorem ends_le_timer {wait : Wait} {timer : Instant} (h : wait.ends = some ends)
    (htimer : wait.timer = some timer) : ends ≤ timer := by
  rw [Wait.ends, htimer] at h
  split at h
  · next heq _ =>
      cases heq
      cases h
      exact Int.min_le_left _ _
  · next heq _ =>
      cases heq
      cases h
      exact Int.le_refl _
  · next heq _ => cases heq
  · next heq _ => cases heq

theorem ends_le_cancel {wait : Wait} {cancel : Instant} (h : wait.ends = some ends)
    (hcancel : wait.cancel = some cancel) : ends ≤ cancel := by
  rw [Wait.ends, hcancel] at h
  split at h
  · next heq =>
      cases heq
      cases h
      exact Int.min_le_right _ _
  · next heq => cases heq
  · next heq =>
      cases heq
      cases h
      exact Int.le_refl _
  · next heq => cases heq

theorem StandsBy.paused (h : StandsBy place p own t) : ∃ phase wait since,
    t.slots[p]? = some (.waiting phase wait since) ∧ Role.of (some phase) ≠ .fetching ∧
      ¬ Wants (some phase) := by
  cases h with
  | joining hslot => exact ⟨_, _, _, hslot, nofun, id⟩
  | awaiting hslot => exact ⟨_, _, _, hslot, nofun, id⟩

theorem Watching.fetching (h : Watching place f p ends own t) : roleAt t f = .fetching := by
  obtain ⟨reply, wait, since, hf, -⟩ := h.fetches
  exact roleAt_of_slot hf

theorem Watching.ne (h : Watching place f p ends own t) : f ≠ p := by
  rintro rfl
  obtain ⟨phase, wait, since, hp, hrole, -⟩ := h.standsBy.paused
  exact hrole ((roleAt_of_slot hp).symm.trans h.fetching)

theorem Watching.passTo (h : Watching place f p ends own t) (instant : Instant) :
    Watching place f p ends own (t.passTo instant) where
  fetches := h.fetches
  uncalled := h.uncalled
  standsBy := by
    cases h.standsBy with
    | joining hslot hbrief htimer hdue =>
        exact .joining hslot hbrief htimer (Int.le_trans hdue (Int.le_max_left _ _))
    | awaiting hslot hdue => exact .awaiting hslot hdue

theorem Watching.le_own (h : Watching place f p ends own t)
    (horderly : Orderly peer place callers g t) (hentry : callers[p]? = some entry)
    {instant : Instant} (hrests : t.RestsUntil instant) :
    instant ≤ own ∨ t.PausesBriefly p ∧ instant ≤ t.world.now := by
  have hjob := horderly.job_eq hentry
  have halarm {phase : Phase (wire peer).Phase} {wait : Wait} {since : Nat} {timer : Instant}
      (hslot : t.slots[p]? = some (.waiting phase wait since)) (htimer : wait.timer = some timer) :
      instant ≤ timer := by
    refine hrests.alarms ⟨timer, since, p⟩ (mem_alarms.mpr ⟨_, _, hjob, hslot, ?_⟩)
    rw [alarm?, htimer]
    rfl
  cases h.standsBy with
  | joining hslot hbrief htimer hdue =>
      exact .inr ⟨⟨_, _, _, hslot, hbrief⟩, Int.le_trans (halarm hslot htimer) hdue⟩
  | awaiting hslot hdue =>
      left
      rcases hdue with hin | htimer | ⟨hin, -⟩
      · rw [hrests.line] at hin
        cases hin
      · exact halarm hslot htimer
      · exact hrests.agenda _ hin

theorem Watching.ends_le_alarm (h : Watching place f p ends own t) {a : Alarm}
    (ha : a ∈ alarmsFrom 0 t.jobs t.slots) (hticket : a.ticket = f) : ends ≤ a.instant := by
  obtain ⟨job, slot, -, hslot, halarm⟩ := mem_alarms.mp ha
  obtain ⟨reply, wait, since, hf, hends⟩ := h.fetches
  rw [hticket, hf] at hslot
  obtain rfl := Option.some.inj hslot
  obtain ⟨timer, htimer, ha⟩ := Option.map_eq_some_iff.mp halarm
  rw [← ha]
  exact ends_le_timer hends htimer

theorem Watching.ends_le_cancellation (h : Watching place f p ends own t)
    (horderly : Orderly peer place callers g t) {c : Cancellation} (hc : c ∈ t.world.agenda)
    (hticket : c.ticket = f) : ends ≤ c.instant := by
  obtain ⟨entry, hentry, hcancelAt⟩ := horderly.agenda c hc
  obtain ⟨reply, wait, since, hf, hends⟩ := h.fetches
  rw [hticket] at hentry
  exact ends_le_cancel hends ((horderly.fetching hentry hf).1.trans hcancelAt)

/-! ## Turns of others -/

theorem mem_line_turned {job : Job (Phase (wire peer).Phase) Result} {w' : World}
    (hk : k ∈ (t.turned i job slot' w').line) :
    k ∈ t.line.erase i ∨ k ∈ w'.released ∨ k = i := by
  rcases mem_join.mp hk with hold | hnew
  · exact .inl hold
  · rw [summoned, List.mem_append] at hnew
    rcases hnew with hreleased | hself
    · exact .inr (.inl hreleased)
    · split at hself
      · exact .inr (.inr (List.mem_singleton.mp hself))
      · cases hself

theorem Watching.turned (h : Watching place f p ends own t) (hf : i ≠ f) (hp : i ≠ p)
    {job : Job (Phase (wire peer).Phase) Result} {w' : World}
    (hpublished : (w'.grant place).published = (t.world.grant place).published)
    (hnow : w'.now = t.world.now) (hagenda : w'.agenda = t.world.agenda)
    (hreleased : w'.released = []) :
    Watching place f p ends own (t.turned i job slot' w') where
  fetches := by
    obtain ⟨reply, wait, since, hslot, hends⟩ := h.fetches
    exact ⟨reply, wait, since, (List.getElem?_set_ne hf).trans hslot, hends⟩
  uncalled := by
    intro hin
    rcases mem_line_turned hin with hold | hnew | heq
    · exact h.uncalled (List.mem_of_mem_erase hold)
    · rw [hreleased] at hnew
      cases hnew
    · exact hf heq.symm
  standsBy := by
    have hset : (t.slots.set i slot')[p]? = t.slots[p]? := List.getElem?_set_ne hp
    cases h.standsBy with
    | joining hslot hbrief htimer hdue =>
        exact .joining (hset.trans (hpublished.symm ▸ hslot)) hbrief htimer (hnow.symm ▸ hdue)
    | awaiting hslot hdue =>
        refine .awaiting (hset.trans (hpublished.symm ▸ hslot)) ?_
        refine hdue.imp ?_ (Or.imp_right fun hin => ⟨?_, hin.2⟩)
        · exact mem_line_turned_of_ne hp.symm
        · show ⟨own, p⟩ ∈ w'.agenda
          rw [hagenda]
          exact hin.1

/-- While somebody fetches, what others do publishes nothing and releases nobody. -/
theorem quiet_of_deed {now : Instant} {before after : Role}
    (h : Deed g i now before after exchange? reply? g') (hbusy : g.busy = true)
    (hbefore : before ≠ .fetching) : g'.published = g.published ∧ reply? = none := by
  cases h with
  | rests => exact ⟨rfl, rfl⟩
  | sees => exact ⟨rfl, rfl⟩
  | joins => exact ⟨rfl, rfl⟩
  | late => exact ⟨rfl, rfl⟩
  | hears => exact ⟨rfl, rfl⟩
  | leaves => exact ⟨rfl, rfl⟩
  | continues hfetching => exact absurd hfetching hbefore
  | receives _ hfetching => exact absurd hfetching hbefore
  | asks _ hidle =>
      rw [hbusy] at hidle
      cases hidle
  | exchanges _ _ hidle =>
      rw [hbusy] at hidle
      cases hidle

/-- A turn of somebody else leaves the caller standing by. -/
theorem Watching.other (h : Watching place f p ends own t)
    (horderly : Orderly peer place callers g t) (htickets : Ticketed callers) (hf : i ≠ f)
    (hp : i ≠ p) (hnext : Next (some i) t t') : Watching place f p ends own t' := by
  cases horderly.toPeopled.taken hnext with
  | nobody =>
      refine ⟨h.fetches, fun hin => h.uncalled (List.mem_of_mem_erase hin), ?_⟩
      cases h.standsBy with
      | joining hslot hbrief htimer hdue => exact .joining hslot hbrief htimer hdue
      | awaiting hslot hdue =>
          exact .awaiting hslot (hdue.imp_left (List.mem_erase_of_ne hp.symm).mpr)
  | early => exact h.turned hf hp rfl rfl rfl horderly.released
  | spent => exact h.turned hf hp rfl rfl rfl horderly.released
  | @works entry slot before hentry hslot htakes _ =>
      obtain ⟨exchange?, reply?, hturn⟩ := turnFrom_turn entry.2 horderly.grant before
      obtain ⟨g', hdeed, hrecords⟩ := horderly.deed htickets hentry hslot htakes hturn
      have hbusy : g.busy = true := horderly.attendance.busy.mpr ⟨f, h.fetching⟩
      obtain ⟨hpublished, rfl⟩ := quiet_of_deed hdeed hbusy fun hfetching =>
        hf (horderly.attendance.one hfetching h.fetching)
      refine h.turned hf hp ?_ hrecords.now hrecords.agenda ?_
      · rw [grant_eq hrecords.grant, grant_eq horderly.grant, hpublished]
      · exact hrecords.released.trans ((List.append_nil _).trans horderly.released)

theorem Watching.cancel (h : Watching place f p ends own t) {c : Cancellation}
    (hf : c.ticket ≠ f) : Watching place f p ends own (t.cancel c) where
  fetches := h.fetches
  uncalled := by
    show f ∉ if _ then join t.line [c.ticket] else t.line
    split
    · intro hin
      rcases mem_join.mp hin with hold | hnew
      · exact h.uncalled hold
      · exact hf (List.mem_singleton.mp hnew).symm
    · exact h.uncalled
  standsBy := by
    have hline (hin : p ∈ t.line) : p ∈ (t.cancel c).line := by
      show p ∈ if _ then join t.line [c.ticket] else t.line
      split
      · exact mem_join.mpr (.inl hin)
      · exact hin
    cases h.standsBy with
    | joining hslot hbrief htimer hdue =>
        exact .joining hslot hbrief htimer (Int.le_trans hdue (Int.le_max_left _ _))
    | awaiting hslot hdue =>
        refine .awaiting hslot ?_
        rcases hdue with hin | htimer | ⟨hin, hheeds⟩
        · exact .inl (hline hin)
        · exact .inr (.inl htimer)
        · by_cases hown : ⟨own, p⟩ = c
          -- Its own cancellation calls the caller into line.
          · left
            subst hown
            have hheeded : t.slots[p]?.any Slot.heedsCancellation = true := by
              rw [hslot]
              exact hheeds
            show p ∈ if _ then join t.line [p] else t.line
            rw [if_pos hheeded]
            exact mem_join.mpr (.inr List.mem_cons_self)
          · exact .inr (.inr ⟨(List.mem_erase_of_ne hown).mpr hin, hheeds⟩)

/-! ## Turns of the caller itself -/

theorem standsBy_of_sees (hg : t.world.grants[place]? = some g) (hslot : t.slots[p]? = some slot)
    {job : Job (Phase (wire peer).Phase) Result} {since : Nat} :
    StandsBy place p own (t.turned p job
      (.waiting (.joining g.published) { timer := some t.world.now, brief := true } since)
      t.world) := by
  have hset : (t.turned p job (.waiting (.joining g.published)
      { timer := some t.world.now, brief := true } since) t.world).slots[p]? =
      some (.waiting (.joining (t.world.grant place).published)
        { timer := some t.world.now, brief := true } since) := by
    rw [grant_eq hg]
    exact turned_slot hslot
  exact .joining hset rfl rfl (Int.le_refl _)

theorem standsBy_of_joins (horderly : Orderly peer place callers g t)
    (hentry : callers[p]? = some entry) (hticket : entry.2.ticket = p)
    (hown : entry.2.cancelAt = some own ∨ entry.2.deadline = some own)
    (hslot : t.slots[p]? = some slot) {w' : World} (hg' : w'.grants[place]? = some g')
    (hpublished : g'.published = g.published) (hnow : w'.now = t.world.now)
    (hagenda : w'.agenda = t.world.agenda) {since : Nat} :
    StandsBy place p own (t.turned p (job (wire peer) place entry.1 entry.2)
      (.waiting (.awaiting g.published)
        { timer := entry.2.deadline, cancel := entry.2.cancelAt } since) w') := by
  have hset : (t.turned p (job (wire peer) place entry.1 entry.2)
      (.waiting (.awaiting g.published)
        { timer := entry.2.deadline, cancel := entry.2.cancelAt } since) w').slots[p]? =
      some (.waiting (.awaiting (w'.grant place).published)
        { timer := entry.2.deadline, cancel := entry.2.cancelAt } since) := by
    rw [grant_eq hg', hpublished]
    exact turned_slot hslot
  refine .awaiting hset ?_
  rcases hown with hcancelAt | hdeadline
  · by_cases hcome : ⟨own, p⟩ ∈ t.world.agenda
    · refine .inr (.inr ⟨?_, by rw [hcancelAt]; rfl⟩)
      show ⟨own, p⟩ ∈ w'.agenda
      rw [hagenda]
      exact hcome
    -- It has been canceled already, so it comes into line at once.
    · refine .inl (mem_join.mpr (.inr (List.mem_append_right _ ?_)))
      have hcanceled : w'.canceled entry.2 = true := by
        rw [World.canceled, hnow, hagenda]
        exact horderly.canceled hentry hticket hcancelAt hcome
      show p ∈ if (entry.2.cancelAt.isSome && w'.canceled entry.2) = true then [p] else []
      rw [hcanceled, hcancelAt]
      exact List.mem_cons_self
  · exact .inr (.inl hdeadline)

theorem GivesUp.fetching {caller : Caller} (h : GivesUp t f caller ends own) :
    roleAt t f = .fetching := by
  obtain ⟨reply, wait, since, hf, -⟩ := h.fetches
  exact roleAt_of_slot hf

/-- A caller that stands by after its turn finds the fetch as it was. -/
theorem GivesUp.watching {caller : Caller} (h : GivesUp t f caller ends own) (hne : f ≠ p)
    {job : Job (Phase (wire peer).Phase) Result} {w' : World} (hreleased : w'.released = [])
    (hstands : StandsBy place p own (t.turned p job slot' w')) :
    Watching place f p ends own (t.turned p job slot' w') := by
  obtain ⟨reply, wait, since, hf, hends⟩ := h.fetches
  refine ⟨⟨reply, wait, since, (turned_slot_ne hne).trans hf, hends⟩, fun hin => ?_, hstands⟩
  rcases mem_line_turned hin with hold | hnew | heq
  · exact h.uncalled (List.mem_of_mem_erase hold)
  · rw [hreleased] at hnew
    cases hnew
  · exact hne heq

/-- **A caller that begins while another fetches, or stands by, then stands by or has settled.** -/
theorem watching_of_turn (horderly : Orderly peer place callers g t)
    (hentry : callers[p]? = some entry) (hticket : entry.2.ticket = p)
    (hgives : GivesUp t f entry.2 ends own) (hslot : t.slots[p]? = some slot)
    {before : Option (Phase (wire peer).Phase)} (htakes : TakesUp entry.1 t.world.now slot before)
    (hbefore : ∀ phase, before = some phase →
      phase = .joining g.published ∨ phase = .awaiting g.published)
    {stretch : Stretch (Phase (wire peer).Phase) Result}
    (hturn : Turn (wire peer) place entry.2 t.world g before exchange? reply? stretch)
    (ht' : t' = t.turned p (job (wire peer) place entry.1 entry.2) (.after t.turn stretch)
      stretch.2) :
    Watching place f p ends own t' ∨ Settled p t' := by
  have hbusy : g.busy = true := horderly.attendance.busy.mpr ⟨f, hgives.fetching⟩
  have hnotFetching {phase : Reply} : before ≠ some (.fetching phase) := by
    intro heq
    rcases hbefore _ heq with hphase | hphase
    · cases hphase
    · cases hphase
  have hne : f ≠ p := by
    rintro rfl
    have hrole := hgives.fetching
    rw [roleAt_of_slot hslot, htakes.phaseOf_eq] at hrole
    cases before with
    | none => cases hrole
    | some phase =>
        rcases hbefore phase rfl with rfl | rfl
        · cases hrole
        · cases hrole
  have hidle (hfetch : Fetches g t.world.now before) : False := by
    have hidle := hfetch.idle
    rw [hbusy] at hidle
    cases hidle
  subst ht'
  cases hturn with
  | serves => exact .inr (.ended (turned_slot hslot))
  | sees =>
      exact .inl (hgives.watching hne horderly.released (standsBy_of_sees horderly.grant hslot))
  | asks hfetch => exact (hidle hfetch).elim
  | exchanges hfetch => exact (hidle hfetch).elim
  | continues => exact absurd rfl hnotFetching
  | receives => exact absurd rfl hnotFetching
  | joins =>
      have hg' : (t.world.setGrant place (g.join entry.2.ticket g.published)).grants[place]? =
          some (g.join entry.2.ticket g.published) := getElem?_setGrant horderly.grant
      exact .inl (hgives.watching hne horderly.released
        (standsBy_of_joins horderly hentry hticket hgives.leaves hslot hg' rfl rfl rfl))
  | late hseen =>
      rcases hbefore _ rfl with hphase | hphase
      · exact absurd (Phase.joining.inj hphase).symm hseen
      · cases hphase
  | hears hseen =>
      rcases hbefore _ rfl with hphase | hphase
      · cases hphase
      · exact absurd (Phase.awaiting.inj hphase).symm hseen
  | leaves => exact .inr (.returning ofCaller_ne_abandoned (turned_slot hslot) rfl)
  | ends =>
      rcases hbefore _ rfl with hphase | hphase
      · cases hphase
      · cases hphase

theorem watching_of_begins (horderly : Orderly peer place callers g t)
    (htickets : Ticketed callers) (hentry : callers[p]? = some entry)
    (hgives : GivesUp t f entry.2 ends own) {since : Option Nat}
    (hidle : t.slots[p]? = some (.idle since))
    (hbegins : ∀ since, t'.slots[p]? ≠ some (.idle since)) (hnext : Next (some p) t t') :
    Watching place f p ends own t' ∨ Settled p t' := by
  cases horderly.toPeopled.taken hnext with
  | nobody => exact absurd hidle (hbegins since)
  | early _ hslot => exact absurd (turned_slot hslot) (hbegins _)
  | spent _ hslot => cases hidle.symm.trans hslot
  | @works entry' slot before hentry' hslot htakes _ =>
      obtain rfl := Option.some.inj (hentry.symm.trans hentry')
      obtain rfl := Option.some.inj (hidle.symm.trans hslot)
      obtain ⟨exchange?, reply?, hturn⟩ := turnFrom_turn entry.2 horderly.grant before
      refine watching_of_turn horderly hentry (htickets p entry hentry) hgives hidle htakes ?_
        hturn rfl
      rintro phase rfl
      cases htakes

theorem Watching.own_turn (h : Watching place f p ends own t)
    (horderly : Orderly peer place callers g t) (htickets : Ticketed callers)
    (hentry : callers[p]? = some entry)
    (hown : entry.2.cancelAt = some own ∨ entry.2.deadline = some own) (hlt : own < ends)
    (hnext : Next (some p) t t') : Watching place f p ends own t' ∨ Settled p t' := by
  obtain ⟨phase, wait, since, hp, -, -⟩ := h.standsBy.paused
  have hphase : phase = .joining g.published ∨ phase = .awaiting g.published := by
    rw [← grant_eq horderly.grant]
    cases h.standsBy with
    | joining hslot =>
        cases hp.symm.trans hslot
        exact .inl rfl
    | awaiting hslot =>
        cases hp.symm.trans hslot
        exact .inr rfl
  cases horderly.toPeopled.taken hnext with
  | nobody hnone => exact absurd hnone (not_none_or hentry hp)
  | early _ hslot => cases hp.symm.trans hslot
  | spent _ hslot => cases hp.symm.trans hslot
  | @works entry' slot before hentry' hslot htakes _ =>
      obtain rfl := Option.some.inj (hentry.symm.trans hentry')
      obtain rfl := Option.some.inj (hp.symm.trans hslot)
      obtain ⟨exchange?, reply?, hturn⟩ := turnFrom_turn entry.2 horderly.grant before
      refine watching_of_turn horderly hentry (htickets p entry hentry)
        ⟨h.fetches, h.uncalled, hown, hlt⟩ hp htakes ?_ hturn rfl
      rintro phase' rfl
      cases htakes
      exact hphase

theorem Settled.next (h : Settled p t) (horderly : Orderly peer place callers g t)
    {label : Option Ticket} (hnext : Next label t t') : Settled p t' := by
  rcases hnext.slots_cases p with hsame | rfl
  · cases h with
    | returning hending hslot hbrief => exact .returning hending (hsame.trans hslot) hbrief
    | ended hslot => exact .ended (hsame.trans hslot)
  · cases h with
    | ended hslot => exact .ended (hnext.ended hslot)
    | returning hending hp hbrief =>
        cases horderly.toPeopled.taken hnext with
        | nobody => exact .returning hending hp hbrief
        | early _ hslot => cases hp.symm.trans hslot
        | spent _ hslot => cases hp.symm.trans hslot
        | @works entry slot before hentry hslot htakes _ =>
            obtain rfl := Option.some.inj (hp.symm.trans hslot)
            cases htakes
            obtain ⟨exchange?, reply?, hturn⟩ := turnFrom_turn entry.2 horderly.grant
              (some (.returning _))
            generalize turnFrom (wire peer) place entry.2 (some (.returning _)) t.world = stretch
              at hturn ⊢
            cases hturn with
            | serves hwants => exact absurd hwants hending
            | sees hwants => exact absurd hwants hending
            | asks hfetches => exact absurd hfetches.wants hending
            | exchanges hfetches => exact absurd hfetches.wants hending
            | ends => exact .ended (turned_slot hp)

/-! ## Nothing of it is seen -/

theorem unseen_of_paused (horderly : Orderly peer place callers g t)
    (hentry : callers[p]? = some entry) (hticket : entry.2.ticket = p)
    {phase : Phase (wire peer).Phase} {wait : Wait} {since : Nat}
    (hp : t.slots[p]? = some (.waiting phase wait since))
    (hrole : Role.of (some phase) ≠ .fetching) (hnot : ¬ Wants (some phase)) :
    Unseen place p t t' := by
  intro instant job' slot _ hjob hslot
  obtain rfl := Option.some.inj (hp.symm.trans hslot)
  obtain rfl := Option.some.inj ((horderly.job_eq hentry).symm.trans hjob)
  show Traceless place p _ (turnFrom (wire peer) place entry.2 (some phase) _).2
  refine traceless_of_not_fetches (horderly.passTo instant |>.grant) hticket ?_ fun hfetches => ?_
  · rintro reply ⟨⟩
    exact hrole rfl
  · exact hnot hfetches.wants

/-- A caller that has not begun is not seen while it does not begin, or while another fetches. -/
theorem unseen_of_idle (horderly : Orderly peer place callers g t)
    (hentry : callers[p]? = some entry) (hticket : entry.2.ticket = p) {since : Option Nat}
    (hp : t.slots[p]? = some (.idle since))
    (h : (∃ since, t'.slots[p]? = some (.idle since)) ∨ g.busy = true) :
    Unseen place p t t' := by
  intro instant job' slot hnext hjob hslot
  obtain rfl := Option.some.inj (hp.symm.trans hslot)
  have hown := horderly.job_eq hentry
  obtain rfl := Option.some.inj (hown.symm.trans hjob)
  by_cases hearly : (t.passTo instant).world.now < entry.1
  · rw [@work_early _ _ (job (wire peer) place entry.1 entry.2) _ hearly]
    exact .refl _
  · rw [@work_begin _ _ (job (wire peer) place entry.1 entry.2) _ hearly]
    rcases h with ⟨since', hidle⟩ | hbusy
    · have hbegins : Begins p (t.passTo instant) t' := by
        refine ⟨hnext, ⟨since, hp⟩, fun job' hjob' => ?_⟩
        obtain rfl := Option.some.inj (hown.symm.trans hjob')
        exact Int.not_lt.mp hearly
      exact absurd hidle (hbegins.begun hown since')
    · show Traceless place p _ (turnFrom (wire peer) place entry.2 none _).2
      refine traceless_of_not_fetches (horderly.passTo instant |>.grant) hticket nofun ?_
      intro hfetches
      have hidle := hfetches.idle
      rw [hbusy] at hidle
      cases hidle

theorem Watching.unseen (h : Watching place f p ends own t)
    (horderly : Orderly peer place callers g t) (hentry : callers[p]? = some entry)
    (hticket : entry.2.ticket = p) : Unseen place p t t' := by
  obtain ⟨phase, wait, since, hp, hrole, hnot⟩ := h.standsBy.paused
  exact unseen_of_paused horderly hentry hticket hp hrole hnot

theorem Settled.unseen (h : Settled p t) (horderly : Orderly peer place callers g t)
    (hentry : callers[p]? = some entry) (hticket : entry.2.ticket = p) : Unseen place p t t' := by
  cases h with
  | returning hending hp =>
      exact unseen_of_paused horderly hentry hticket hp nofun hending
  | ended hp =>
      intro instant job' slot _ _ hslot
      obtain rfl := Option.some.inj (hp.symm.trans hslot)
      exact .refl _

/-! ## Any order of turns -/

theorem Orderly.now_eq (h : Orderly peer place callers g t) (htickets : Ticketed callers)
    (hnext : Next (some i) t t') : t'.world.now = t.world.now := by
  cases h.toPeopled.taken hnext with
  | nobody => rfl
  | early => rfl
  | spent => rfl
  | @works entry slot before hentry hslot htakes _ =>
      obtain ⟨exchange?, reply?, hturn⟩ := turnFrom_turn entry.2 h.grant before
      obtain ⟨_, -, hrecords⟩ := h.deed htickets hentry hslot htakes hturn
      exact hrecords.now

/-- While nobody is kept waiting, a caller that stands by settles before the fetch has ended. -/
theorem Watching.prompt (h : Watching place f p ends own t) (hnow : t.world.now < ends)
    (horderly : Orderly peer place callers g t) (htickets : Ticketed callers)
    (hentry : callers[p]? = some entry)
    (hown : entry.2.cancelAt = some own ∨ entry.2.deadline = some own) (hlt : own < ends)
    {label : Option Ticket} (hprompt : Prompt label t t') :
    Watching place f p ends own t' ∧ t'.world.now < ends ∨ Settled p t' := by
  obtain ⟨hnext, hrests⟩ := hprompt
  cases label with
  | some i =>
      have hsame := horderly.now_eq htickets hnext
      have hf : i ≠ f := by
        rintro rfl
        cases hnext with
        | turn hin => exact h.uncalled hin
        | alarm ha hdue =>
            have hends := h.ends_le_alarm ha rfl
            exact absurd (Int.le_trans hends hdue) (Int.not_le.mpr hnow)
      by_cases hp : i = p
      · subst hp
        rcases h.own_turn horderly htickets hentry hown hlt hnext with hwatching | hsettled
        · exact .inl ⟨hwatching, hsame.symm ▸ hnow⟩
        · exact .inr hsettled
      · exact .inl ⟨h.other horderly htickets hf hp hnext, hsame.symm ▸ hnow⟩
  | none =>
      left
      cases hnext with
      | passage _ instant =>
          refine ⟨h.passTo instant, ?_⟩
          by_cases hlater : t.world.now < (t.passTo instant).world.now
          · rcases h.le_own horderly hentry (hrests rfl hlater) with hle | ⟨-, hle⟩
            · exact Int.lt_of_le_of_lt hle hlt
            · exact absurd hlater (Int.not_lt.mpr hle)
          · exact Int.lt_of_le_of_lt (Int.not_lt.mp hlater) hnow
      | @cancellation _ c hc hdue =>
          have hsame : (t.cancel c).world.now = t.world.now := Int.max_eq_left hdue
          refine ⟨h.cancel fun hticket => ?_, hsame.symm ▸ hnow⟩
          have hends := h.ends_le_cancellation horderly hc hticket
          exact absurd (Int.le_trans hends hdue) (Int.not_le.mpr hnow)

/-! ## The order of a run -/

theorem watching_of_step (horderly : Orderly peer place callers g t)
    (htickets : Ticketed callers) (hentry : callers[p]? = some entry)
    (hgives : GivesUp t f entry.2 ends own) {since : Option Nat}
    (hidle : t.slots[p]? = some (.idle since))
    (hbegins : ∀ since, t'.slots[p]? ≠ some (.idle since)) (hstep : t.step? = some t') :
    Watching place f p ends own t' ∨ Settled p t' := by
  obtain ⟨instant, hturn⟩ : ∃ instant, Next (some p) (t.passTo instant) t' := by
    cases step?_move hstep with
    | @turn instant i _ _ hnext =>
        rcases hnext.slots_cases p with hsame | hself
        · exact absurd (hsame.trans hidle) (hbegins since)
        · exact ⟨instant, hself ▸ hnext⟩
    | cancellation => exact absurd hidle (hbegins since)
  exact watching_of_begins (horderly.passTo instant) htickets hentry
    ⟨hgives.fetches, hgives.uncalled, hgives.leaves, hgives.early⟩ hidle hbegins hturn

/-- On a run a caller that stands by settles before the fetch has ended. -/
theorem Watching.step (h : Watching place f p ends own t)
    (horderly : Orderly peer place callers g t) (htickets : Ticketed callers) (hone : OneBrief t)
    (hentry : callers[p]? = some entry)
    (hown : entry.2.cancelAt = some own ∨ entry.2.deadline = some own) (hlt : own < ends)
    (hstep : t.step? = some t') : Watching place f p ends own t' ∨ Settled p t' := by
  have hturn {i : Ticket} {t₁ : Timeline (Phase (wire peer).Phase) Result}
      (h₁ : Watching place f p ends own t₁) (horderly₁ : Orderly peer place callers g t₁)
      (hf : i ≠ f) (hnext : Next (some i) t₁ t') :
      Watching place f p ends own t' ∨ Settled p t' := by
    by_cases hp : i = p
    · subst hp
      exact h₁.own_turn horderly₁ htickets hentry hown hlt hnext
    · exact .inl (h₁.other horderly₁ htickets hf hp hnext)
  -- What comes when nobody pauses briefly comes before the end of the fetch.
  have hearly (hnone : t.brief? = none) {instant : Instant} (hrests : t.RestsUntil instant) :
      ¬ ends ≤ instant := by
    rcases h.le_own horderly hentry hrests with hle | ⟨hpauses, -⟩
    · exact Int.not_le.mpr (Int.lt_of_le_of_lt hle hlt)
    · have hlength : t.jobs.length = t.slots.length := by
        rw [horderly.jobs, horderly.length]
        exact List.length_map _
      obtain ⟨a, hsome, -⟩ := hone.next hlength hpauses
      cases hnone.symm.trans hsome
  rcases step?_cases hstep with ⟨a, hsome, hnext⟩ | ⟨-, i, rest, hline, hnext⟩ |
    ⟨hnone, hline, c, hevent, rfl⟩ | ⟨hnone, hline, a, hevent, hnext⟩
  · refine hturn h horderly ?_ hnext
    intro hf
    obtain ⟨phase, wait, since, hslot, hbrief⟩ := pausesBriefly_of_brief? hsome
    obtain ⟨reply, wait', since', hfetches, -⟩ := h.fetches
    rw [hf] at hslot
    cases hslot.symm.trans hfetches
    have hlt := horderly.length ▸ (List.getElem?_eq_some_iff.mp hfetches).1
    have hlong := (horderly.fetching (List.getElem?_eq_getElem hlt) hfetches).2
    cases hbrief.symm.trans hlong
  · refine hturn h horderly ?_ hnext
    rintro rfl
    exact h.uncalled (hline ▸ List.mem_cons_self)
  · obtain ⟨-, hfirst, -⟩ := event?_eq_cancellation.mp hevent
    refine .inl (h.cancel fun hticket => ?_)
    exact hearly hnone (restsUntil_cancellation hline hevent)
      (h.ends_le_cancellation horderly (first?_mem hfirst) hticket)
  · obtain ⟨-, hfirst, -⟩ := event?_eq_alarm.mp hevent
    refine hturn (h.passTo a.instant) (horderly.passTo a.instant) (fun hticket => ?_) hnext
    exact hearly hnone (restsUntil_alarm hline hevent)
      (h.ends_le_alarm (first?_mem hfirst) hticket)

end

end Acquire

end BearerAuth
