import BearerAuth.Proofs.Grant.Progress

/-!
# What callers wait for

Whatever the order of turns, cancellations come at the instants of their callers, a caller that
has sent a token request heeds its own cancellation, and one in the queue waits as long as its
own deadline and cancellation let it (`Orderly`).
-/

namespace BearerAuth

open Transport Timeline

namespace Acquire

/-- Callers stand as their grant says, and wait as long as they are let. -/
structure Orderly (peer : Peer) (place : Nat) (callers : List (Instant × Caller)) (g : Grant)
    (t : Timeline (Phase (wire peer).Phase) Result) : Prop
    extends Attentive (wire peer) place callers g t where
  /-- A cancellation to come is that of its caller. -/
  agenda : ∀ c ∈ t.world.agenda, ∃ entry, callers[c.ticket]? = some entry ∧
    entry.2.cancelAt = some c.instant
  /-- Every cancellation comes at its instant, or later. -/
  scheduled : ∀ {i : Ticket} {entry : Instant × Caller} {instant : Instant},
    callers[i]? = some entry → entry.2.cancelAt = some instant →
    instant ≤ t.world.now ∨ ⟨instant, i⟩ ∈ t.world.agenda
  fetching : ∀ {i : Ticket} {entry : Instant × Caller} {reply : Reply} {wait : Wait}
    {since : Nat}, callers[i]? = some entry →
    t.slots[i]? = some (.waiting (.fetching reply) wait since) →
    wait.cancel = entry.2.cancelAt ∧ wait.brief = false
  awaiting : ∀ {i : Ticket} {entry : Instant × Caller} {seen : Nat} {wait : Wait}
    {since : Nat}, callers[i]? = some entry →
    t.slots[i]? = some (.waiting (.awaiting seen) wait since) → wait.brief = false →
    wait = { timer := entry.2.deadline, cancel := entry.2.cancelAt }

section

variable {peer : Peer} {place : Nat} {callers : List (Instant × Caller)} {g g' : Grant}
  {t t' : Timeline (Phase (wire peer).Phase) Result} {i k : Ticket} {caller : Caller} {w : World}
  {slot slot' : Slot (Phase (wire peer).Phase) Result}
  {before : Option (Phase (wire peer).Phase)} {exchange? : Option Exchange}
  {reply? : Option Reply} {stretch : Stretch (Phase (wire peer).Phase) Result}

/-- Whoever pauses after a turn heeds its cancellation when it fetches, and its deadline too when
it waits for another's fetch. -/
theorem Turn.waits (h : Turn (wire peer) place caller w g before exchange? reply? stretch)
    {phase : Phase (wire peer).Phase} {wait : Wait} (hpaused : stretch.1 = .paused phase wait) :
    (∀ reply, phase = .fetching reply → wait.cancel = caller.cancelAt ∧ wait.brief = false) ∧
      ∀ seen, phase = .awaiting seen → wait.brief = false →
        wait = { timer := caller.deadline, cancel := caller.cancelAt } := by
  cases h with
  | serves => cases hpaused
  | sees =>
      cases hpaused
      exact ⟨nofun, nofun⟩
  | asks _ hstart =>
      cases hpaused
      have hwaits := wire_waits hstart
      exact ⟨fun _ _ => ⟨hwaits.cancel, hwaits.long⟩, nofun⟩
  | exchanges => cases hpaused
  | continues hresume => cases hresume
  | receives => cases hpaused
  | joins =>
      cases hpaused
      exact ⟨nofun, fun _ _ _ => rfl⟩
  | late =>
      cases hpaused
      exact ⟨nofun, fun _ _ hbrief => by cases hbrief⟩
  | hears =>
      cases hpaused
      exact ⟨nofun, nofun⟩
  | leaves =>
      cases hpaused
      exact ⟨nofun, nofun⟩
  | ends => cases hpaused

theorem after_eq_waiting {φ ρ : Type} {stretch : Stretch φ ρ} {turn since : Nat} {phase : φ}
    {wait : Wait} (h : Slot.after turn stretch = .waiting phase wait since) :
    stretch.1 = .paused phase wait := by
  obtain ⟨progress, w⟩ := stretch
  cases progress with
  | done result => cases h
  | paused phase' wait' =>
      cases h
      rfl

theorem Orderly.passTo (h : Orderly peer place callers g t) (instant : Instant) :
    Orderly peer place callers g (t.passTo instant) where
  toAttentive := h.toAttentive.passTo instant
  agenda := h.agenda
  scheduled hentry hcancelAt :=
    (h.scheduled hentry hcancelAt).imp_left fun hle => Int.le_trans hle (Int.le_max_left _ _)
  fetching := h.fetching
  awaiting := h.awaiting

theorem Orderly.cancel (h : Orderly peer place callers g t) (c : Cancellation) :
    Orderly peer place callers g (t.cancel c) where
  toAttentive := h.toAttentive.cancel c
  agenda c' hc' := h.agenda c' (List.mem_of_mem_erase hc')
  scheduled := by
    intro i entry instant hentry hcancelAt
    rcases h.scheduled hentry hcancelAt with hle | hin
    · exact .inl (Int.le_trans hle (Int.le_max_left _ _))
    · by_cases heq : ⟨instant, i⟩ = c
      · subst heq
        exact .inl (Int.le_max_right _ _)
      · exact .inr ((List.mem_erase_of_ne heq).mpr hin)
  fetching := h.fetching
  awaiting := h.awaiting

/-- A turn that leaves clock and agenda leaves callers in order, when its own caller waits as it
is let. -/
theorem Orderly.turned (h : Orderly peer place callers g t)
    {job : Job (Phase (wire peer).Phase) Result} {w' : World}
    (hattentive : Attentive (wire peer) place callers g' (t.turned i job slot' w'))
    (hnow : w'.now = t.world.now) (hagenda : w'.agenda = t.world.agenda)
    (hwaits : ∀ {entry phase wait since}, callers[i]? = some entry →
      slot' = .waiting phase wait since →
      (∀ reply, phase = .fetching reply →
        wait.cancel = entry.2.cancelAt ∧ wait.brief = false) ∧
        ∀ seen, phase = .awaiting seen → wait.brief = false →
          wait = { timer := entry.2.deadline, cancel := entry.2.cancelAt }) :
    Orderly peer place callers g' (t.turned i job slot' w') where
  toAttentive := hattentive
  agenda c hc := h.agenda c (hagenda ▸ hc)
  scheduled := by
    intro k entry instant hentry hcancelAt
    show instant ≤ w'.now ∨ ⟨instant, k⟩ ∈ w'.agenda
    rw [hnow, hagenda]
    exact h.scheduled hentry hcancelAt
  fetching := by
    intro k entry reply wait since hentry hk
    rcases getElem?_set_cases hk with ⟨rfl, hself⟩ | ⟨-, hold⟩
    · exact (hwaits hentry hself).1 _ rfl
    · exact h.fetching hentry hold
  awaiting := by
    intro k entry seen wait since hentry hk
    rcases getElem?_set_cases hk with ⟨rfl, hself⟩ | ⟨-, hold⟩
    · exact (hwaits hentry hself).2 _ rfl
    · exact h.awaiting hentry hold

/-- **Every step leaves callers in order.** -/
theorem Orderly.next (h : Orderly peer place callers g t) (htickets : Ticketed callers)
    {label : Option Ticket} (hnext : Next label t t') :
    ∃ g', Orderly peer place callers g' t' := by
  obtain ⟨g', hattentive⟩ := h.toAttentive.next htickets hnext
  cases label with
  | none =>
      cases hnext with
      | passage _ instant => exact ⟨g, h.passTo instant⟩
      | cancellation _ _ => exact ⟨g, h.cancel _⟩
  | some i =>
      cases h.toPeopled.taken hnext with
      | nobody => exact ⟨g', { h with toAttentive := hattentive }⟩
      | early => exact ⟨g', h.turned hattentive rfl rfl fun _ heq => by cases heq⟩
      | spent => exact ⟨g', h.turned hattentive rfl rfl fun _ heq => by cases heq⟩
      | @works entry slot before hentry hslot htakes _ =>
          obtain ⟨exchange?, reply?, hturn⟩ := turnFrom_turn entry.2 h.grant before
          obtain ⟨_, -, hrecords⟩ := h.deed htickets hentry hslot htakes hturn
          refine ⟨g', h.turned hattentive hrecords.now hrecords.agenda ?_⟩
          intro entry' phase wait since hentry' hafter
          obtain rfl := Option.some.inj (hentry.symm.trans hentry')
          exact hturn.waits (after_eq_waiting hafter)

theorem Orderly.reaches (h : Orderly peer place callers g t) (htickets : Ticketed callers)
    (hreaches : Reaches t t') : ∃ g', Orderly peer place callers g' t' :=
  hreaches.invariant (I := fun t => ∃ g, Orderly peer place callers g t) ⟨g, h⟩
    fun ⟨_, horderly⟩ hnext => horderly.next htickets hnext

theorem AtRest.orderly {world : World} {ties : Ties} (h : AtRest place g world)
    (htickets : Ticketed callers) :
    Orderly peer place callers g (ofJobs world (crowd (wire peer) place callers) ties) where
  toAttentive := h.attentive
  agenda _ hc := cancellation_ofJobs htickets hc
  scheduled := by
    intro i entry instant hentry hcancelAt
    by_cases hle : instant ≤ world.now
    · exact .inl hle
    · right
      refine List.mem_filterMap.mpr ⟨job (wire peer) place entry.1 entry.2, ?_, ?_⟩
      · exact List.mem_map.mpr ⟨entry, List.mem_of_getElem? hentry, rfl⟩
      · show entry.2.cancellation? world.now = _
        rw [Caller.cancellation?, hcancelAt]
        simp only [if_neg hle, htickets i entry hentry]
  fetching := by
    intro i entry reply wait since _ hslot
    cases (ofJobs_slots_iff.mp hslot).1
  awaiting := by
    intro i entry seen wait since _ hslot
    cases (ofJobs_slots_iff.mp hslot).1

theorem Orderly.canceled (h : Orderly peer place callers g t) {p : Ticket} {own : Instant}
    {entry : Instant × Caller} (hentry : callers[p]? = some entry) (hticket : entry.2.ticket = p)
    (hcancelAt : entry.2.cancelAt = some own) (hcome : ⟨own, p⟩ ∉ t.world.agenda) :
    t.world.canceled entry.2 = true := by
  have hdue : own ≤ t.world.now := by
    rcases h.scheduled hentry hcancelAt with hdue | hin
    · exact hdue
    · exact absurd hin hcome
  have hnone : (t.world.agenda.any fun c => c.ticket == entry.2.ticket) = false := by
    rw [List.any_eq_false]
    intro c hc hself
    rw [hticket] at hself
    obtain ⟨entry', hentry', hcancelAt'⟩ := h.agenda c hc
    rw [eq_of_beq hself] at hentry'
    obtain rfl := Option.some.inj (hentry.symm.trans hentry')
    obtain ⟨instant, ticket⟩ := c
    obtain rfl : ticket = p := eq_of_beq hself
    obtain rfl : own = instant := Option.some.inj (hcancelAt.symm.trans hcancelAt')
    exact hcome hc
  rw [World.canceled, hnone, Caller.canceled, hcancelAt]
  simpa using hdue

end

end Acquire

end BearerAuth
