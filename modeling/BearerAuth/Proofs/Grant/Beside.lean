import BearerAuth.Proofs.Grant.Progress
import BearerAuth.Proofs.Grant.Without
import BearerAuth.Proofs.Timeline.Brief

/-!
# Two timelines beside each other

One timeline has callers, the other has one more at a position.  They are `Beside` each other
when they agree but for that caller: the slots of the others are the same, and so are line
and world without it.  The clocks may be apart only while all the others rest (`InStep`),
because the caller's own timer or cancellation has moved the one clock ahead.

A step of the longer timeline is then one of the shorter, or none when it is the caller's
own; they stay beside each other as long as the caller's own turns leave nothing behind
(`Unseen`).  That holds of the steps of a run, if the order of timers is lawful
(`Beside.step`), and of steps in any order that keep nobody waiting (`Beside.prompt`).
-/

namespace BearerAuth

open Transport Timeline

namespace Acquire

/-! ## Callers and their jobs -/

section

variable {callers : List (Instant × Caller)} {extra : Instant × Caller} {p k : Ticket}
  {peer : Peer} {place : Nat}

theorem numbered_getElem? (callers : List (Instant × Caller)) (k : Ticket) :
    (numbered callers)[k]? = callers[k]?.map fun entry => (entry.1, entry.2.at k) := by
  rw [numbered, List.getElem?_mapIdx]
  rfl

@[simp] theorem numbered_length (callers : List (Instant × Caller)) :
    (numbered callers).length = callers.length := List.length_mapIdx

theorem insertIdx_shift (callers : List (Instant × Caller)) (extra : Instant × Caller)
    (p k : Nat) : (callers.insertIdx p extra)[shift p k]? = callers[k]? := by
  rw [List.getElem?_insertIdx, shift]
  by_cases hlt : k < p
  · simp [hlt]
  · have hlt' : ¬ k + 1 < p := by omega
    have hne : ¬ k + 1 = p := by omega
    simp [hlt, hlt', hne]

@[simp] theorem numbered_crowd_length (callers : List (Instant × Caller)) :
    (crowd (wire peer) place (numbered callers)).length = callers.length := by
  rw [crowd, List.length_map, numbered_length]

theorem numbered_crowd_getElem? (k : Ticket) :
    (crowd (wire peer) place (numbered callers))[k]? =
      callers[k]?.map fun entry => job (wire peer) place entry.1 (entry.2.at k) := by
  rw [crowd_getElem?, numbered_getElem?, Option.map_map]
  rfl

theorem crowd_insertIdx_shift (k : Ticket) :
    (crowd (wire peer) place (numbered (callers.insertIdx p extra)))[shift p k]? =
      callers[k]?.map fun entry => job (wire peer) place entry.1 (entry.2.at (shift p k)) := by
  rw [numbered_crowd_getElem?, insertIdx_shift]

end

/-! ## Slots -/

/-- The slots of a caller on both timelines; `σ` takes turns of the one to those of the
other. -/
inductive SameSlot {φ ρ : Type} (place : Nat) (p : Ticket) (σ : Nat → Nat) :
    Slot φ ρ → Slot φ ρ → Prop
  | idle : SameSlot place p σ (.idle none) (.idle none)
  | timed {since : Nat} : SameSlot place p σ (.idle (some since)) (.idle (some (σ since)))
  | waiting {phase : φ} {wait : Wait} {since : Nat} :
      SameSlot place p σ (.waiting phase wait since) (.waiting phase wait (σ since))
  | ended {result : ρ} {w : World} :
      SameSlot place p σ (.ended result (w.without place p)) (.ended result w)

/-- Turns of the one timeline come in the same order on the other, and those still to come
follow each other on both. -/
structure Aligned (σ : Nat → Nat) (turn turn' : Nat) : Prop where
  strict : StrictMono σ
  tail : ∀ d : Nat, σ (turn + d) = turn' + d

section

variable {φ ρ : Type} {place : Nat} {p k : Ticket} {σ : Nat → Nat} {turn turn' : Nat}
  {slot slot' : Slot φ ρ}

theorem Aligned.succ (h : Aligned σ turn turn') : Aligned σ (turn + 1) (turn' + 1) where
  strict := h.strict
  tail d := by
    have hd := h.tail (1 + d)
    rwa [← Nat.add_assoc, ← Nat.add_assoc] at hd

theorem Aligned.skip (h : Aligned σ turn turn') :
    Aligned (fun s => if s < turn then σ s else σ s + 1) turn (turn' + 1) where
  strict := by
    intro m n hlt
    have hσ := h.strict hlt
    show (if m < turn then σ m else σ m + 1) < if n < turn then σ n else σ n + 1
    split
    · split
      · exact hσ
      · exact Nat.lt_succ_of_lt hσ
    · next hle =>
        rw [if_neg fun hn => hle (Nat.lt_trans hlt hn)]
        exact Nat.succ_lt_succ hσ
  tail d := by
    have hd := h.tail d
    simp only [Nat.not_lt.mpr (Nat.le_add_right turn d), if_false, hd]
    omega

theorem SameSlot.congr {σ' : Nat → Nat} (h : SameSlot place p σ slot slot')
    (hσ : ∀ since, since? slot = some since → σ' since = σ since) :
    SameSlot place p σ' slot slot' := by
  cases h with
  | idle => exact .idle
  | timed =>
      rw [← hσ _ rfl]
      exact .timed
  | waiting =>
      rw [← hσ _ rfl]
      exact .waiting
  | ended => exact .ended

theorem SameSlot.heedsCancellation (h : SameSlot place p σ slot slot') :
    slot.heedsCancellation = slot'.heedsCancellation := by
  cases h <;> rfl

theorem SameSlot.isBrief (h : SameSlot place p σ slot slot') : slot.isBrief = slot'.isBrief := by
  cases h <;> rfl

theorem SameSlot.hasEnded (h : SameSlot place p σ slot slot') :
    slot.hasEnded = slot'.hasEnded := by
  cases h <;> rfl

theorem sameSlot_after (hturn : σ turn = turn') {stretch stretch' : Stretch φ ρ}
    (h : stretch = stretch'.without place p) :
    SameSlot place p σ (.after turn stretch) (.after turn' stretch') := by
  subst h
  obtain ⟨progress, w⟩ := stretch'
  cases progress with
  | done result => exact .ended
  | paused phase wait =>
      rw [← hturn]
      exact .waiting

/-- The work of a caller is the same on both timelines. -/
theorem work_beside {peer : Peer} {slot slot' : Slot (Phase (wire peer).Phase) Result}
    (begins : Instant) (caller : Caller) (w : World) (h : SameSlot place p σ slot slot')
    (hturn : σ turn = turn') :
    SameSlot place p σ
        (work turn (job (wire peer) place begins (caller.at k)) (w.without place p) slot).1
        (work turn' (job (wire peer) place begins (caller.at (shift p k))) w slot').1 ∧
      (work turn (job (wire peer) place begins (caller.at k)) (w.without place p) slot).2 =
        (work turn' (job (wire peer) place begins (caller.at (shift p k))) w slot').2.without
          place p := by
  have hbegin {since since' : Option Nat} :
      SameSlot place p σ
        (work turn (job (wire peer) place begins (caller.at k)) (w.without place p)
          (.idle since)).1
        (work turn' (job (wire peer) place begins (caller.at (shift p k))) w (.idle since')).1 ∧
      (work turn (job (wire peer) place begins (caller.at k)) (w.without place p)
          (.idle since)).2 =
        (work turn' (job (wire peer) place begins (caller.at (shift p k))) w
          (.idle since')).2.without place p := by
    by_cases hearly : w.now < begins
    · rw [@work_early _ _ (job (wire peer) place begins (caller.at k)) (w.without place p) hearly,
        @work_early _ _ (job (wire peer) place begins (caller.at (shift p k))) w hearly]
      exact ⟨hturn ▸ .timed, rfl⟩
    · rw [@work_begin _ _ (job (wire peer) place begins (caller.at k)) (w.without place p) hearly,
        @work_begin _ _ (job (wire peer) place begins (caller.at (shift p k))) w hearly]
      have hstart : start (wire peer) place (caller.at k) (w.without place p) =
          (start (wire peer) place (caller.at (shift p k)) w).without place p :=
        start_without caller w
      exact ⟨sameSlot_after hturn hstart, congrArg Prod.snd hstart⟩
  cases h with
  | idle => exact hbegin
  | timed => exact hbegin
  | @waiting phase wait since =>
      have hresume : resume (wire peer) place (caller.at k) phase (w.without place p) =
          (resume (wire peer) place (caller.at (shift p k)) phase w).without place p :=
        resume_without caller phase w
      exact ⟨sameSlot_after hturn hresume, congrArg Prod.snd hresume⟩
  | ended => exact ⟨.ended, rfl⟩

end

/-! ## Timelines -/

/-- Two timelines that agree but for the caller at a position, and for the clock. -/
structure Beside (peer : Peer) (place : Nat) (callers : List (Instant × Caller))
    (extra : Instant × Caller) (p : Ticket) (σ : Nat → Nat)
    (t t' : Timeline (Phase (wire peer).Phase) Result) : Prop where
  position : p ≤ callers.length
  jobs : t.jobs = crowd (wire peer) place (numbered callers)
  jobs' : t'.jobs = crowd (wire peer) place (numbered (callers.insertIdx p extra))
  ties : t.ties = t'.ties
  length : t.slots.length = callers.length
  length' : t'.slots.length = callers.length + 1
  aligned : Aligned σ t.turn t'.turn
  dated : Dated t
  slots : ∀ {k : Ticket} {slot : Slot (Phase (wire peer).Phase) Result},
    t.slots[k]? = some slot →
    ∃ slot', t'.slots[shift p k]? = some slot' ∧ SameSlot place p σ slot slot'
  line : t.line = lineWithout p t'.line
  released : t'.world.released = []
  world : t.world = { t'.world.without place p with now := t.world.now }

section

variable {peer : Peer} {place : Nat} {callers : List (Instant × Caller)}
  {extra : Instant × Caller} {p k : Ticket} {σ : Nat → Nat}
  {t t' : Timeline (Phase (wire peer).Phase) Result}

theorem Beside.slot_of_shift (h : Beside peer place callers extra p σ t t')
    {slot' : Slot (Phase (wire peer).Phase) Result} (hslot' : t'.slots[shift p k]? = some slot') :
    ∃ slot, t.slots[k]? = some slot ∧ SameSlot place p σ slot slot' := by
  have hlt : k < t.slots.length := by
    rw [h.length]
    refine lt_of_shift_lt h.position ?_
    rw [← h.length']
    exact (List.getElem?_eq_some_iff.mp hslot').1
  obtain ⟨slot₁, hslot₁, hsame⟩ := h.slots (List.getElem?_eq_getElem hlt)
  obtain rfl := Option.some.inj (hslot'.symm.trans hslot₁)
  exact ⟨_, List.getElem?_eq_getElem hlt, hsame⟩

theorem Beside.slot_none (h : Beside peer place callers extra p σ t t')
    (hslot : t.slots[k]? = none) : t'.slots[shift p k]? = none := by
  cases hslot' : t'.slots[shift p k]? with
  | none => rfl
  | some slot' =>
      obtain ⟨slot, hslot₁, -⟩ := h.slot_of_shift hslot'
      rw [hslot] at hslot₁
      cases hslot₁

theorem Beside.world_eq (h : Beside peer place callers extra p σ t t')
    (hnow : t.world.now = t'.world.now) : t.world = t'.world.without place p := by
  rw [h.world, hnow]
  rfl

theorem Beside.agenda (h : Beside peer place callers extra p σ t t') :
    t.world.agenda = t'.world.agenda.filterMap (Cancellation.without p) := by
  rw [h.world]
  rfl

theorem Beside.pass (h : Beside peer place callers extra p σ t t') (instant instant' : Instant) :
    Beside peer place callers extra p σ (t.passTo instant) (t'.passTo instant') := by
  refine { h with dated := ⟨h.dated.earlier, h.dated.once⟩, world := ?_ }
  show t.world.advanceTo instant = _
  rw [h.world]
  rfl

theorem Beside.job_of_slot (h : Beside peer place callers extra p σ t t')
    {slot : Slot (Phase (wire peer).Phase) Result} (hslot : t.slots[k]? = some slot) :
    ∃ (begins : Instant) (caller : Caller),
      t.jobs[k]? = some (job (wire peer) place begins (caller.at k)) ∧
      t'.jobs[shift p k]? = some (job (wire peer) place begins (caller.at (shift p k))) := by
  have hlt : k < callers.length := h.length ▸ (List.getElem?_eq_some_iff.mp hslot).1
  refine ⟨callers[k].1, callers[k].2, ?_, ?_⟩
  · rw [h.jobs, numbered_crowd_getElem?, List.getElem?_eq_getElem hlt]
    rfl
  · rw [h.jobs', crowd_insertIdx_shift, List.getElem?_eq_getElem hlt]
    rfl

/-- A turn of another caller brings the same others into line. -/
theorem summoned_beside {slot slot' : Slot (Phase (wire peer).Phase) Result} {caller : Caller}
    (hsame : SameSlot place p σ slot slot') (begins : Instant) (w : World) :
    summoned k (job (wire peer) place begins (caller.at k)) slot (w.without place p) =
      lineWithout p (summoned (shift p k)
        (job (wire peer) place begins (caller.at (shift p k))) slot' w) := by
  have hcanceled := @canceled_without place w caller p k
  rw [summoned, summoned, lineWithout_append, hsame.heedsCancellation,
    show (w.without place p).canceled (job (wire peer) place begins (caller.at k)).caller =
      w.canceled (job (wire peer) place begins (caller.at (shift p k))).caller
      from hcanceled]
  congr 1
  split
  · rw [lineWithout_cons_shift, lineWithout_nil]
  · rfl

/-- A turn of the caller in which nobody is released brings none of the others into line. -/
theorem summoned_self {job : Job (Phase (wire peer).Phase) Result}
    {slot : Slot (Phase (wire peer).Phase) Result} {w : World} (hreleased : w.released = []) :
    lineWithout p (summoned p job slot w) = [] := by
  rw [summoned, hreleased, List.nil_append]
  split
  · rw [lineWithout_cons_self, lineWithout_nil]
  · rfl

theorem Beside.takeTurn (h : Beside peer place callers extra p σ t t')
    (hnow : t.world.now = t'.world.now) (k : Ticket) :
    Beside peer place callers extra p σ (t.takeTurn k) (t'.takeTurn (shift p k)) ∧
      (t.takeTurn k).world.now = (t'.takeTurn (shift p k)).world.now := by
  cases hslot : t.slots[k]? with
  | none =>
      rw [takeTurn_of_none (.inr hslot), takeTurn_of_none (.inr (h.slot_none hslot))]
      exact ⟨h, hnow⟩
  | some slot =>
      obtain ⟨slot', hslot', hsame⟩ := h.slots hslot
      obtain ⟨begins, caller, hjob, hjob'⟩ := h.job_of_slot hslot
      have hturn : σ t.turn = t'.turn := h.aligned.tail 0
      have hdated := h.dated.takeTurn k
      rw [takeTurn_eq hjob hslot] at hdated ⊢
      rw [takeTurn_eq hjob' hslot']
      rw [h.world_eq hnow] at hdated ⊢
      obtain ⟨hslots, hworld⟩ :=
        @work_beside place p k σ t.turn t'.turn peer slot slot' begins caller t'.world hsame hturn
      generalize work t.turn (job (wire peer) place begins (caller.at k))
        (t'.world.without place p) slot = done at hslots hworld hdated ⊢
      generalize work t'.turn (job (wire peer) place begins (caller.at (shift p k)))
        t'.world slot' = done' at hslots hworld ⊢
      obtain ⟨after, w⟩ := done
      obtain ⟨after', w'⟩ := done'
      obtain rfl : w = w'.without place p := hworld
      have hslots : SameSlot place p σ after after' := hslots
      refine ⟨⟨h.position, h.jobs, h.jobs', h.ties, ?_, ?_, h.aligned.succ, hdated, ?_, ?_, rfl,
        rfl⟩, rfl⟩
      · show (t.slots.set k after).length = _
        rw [List.length_set, h.length]
      · show (t'.slots.set (shift p k) after').length = _
        rw [List.length_set, h.length']
      · intro k₁ slot₁ hk₁
        rcases getElem?_set_cases hk₁ with ⟨rfl, rfl⟩ | ⟨hne, hold⟩
        · exact ⟨after',
            List.getElem?_set_self (List.getElem?_eq_some_iff.mp hslot').1, hslots⟩
        · obtain ⟨slot₂, hslot₂, hsame₂⟩ := h.slots hold
          refine ⟨slot₂, ?_, hsame₂⟩
          show (t'.slots.set (shift p k) after')[shift p k₁]? = _
          rw [List.getElem?_set_ne fun heq => hne (shift_inj heq).symm]
          exact hslot₂
      · show join t.line _ = lineWithout p (join t'.line _)
        rw [← join_lineWithout, ← h.line, ← summoned_beside hslots begins w']

theorem Beside.selfTurn (h : Beside peer place callers extra p σ t t')
    (hdone : ∀ {job slot}, t'.jobs[p]? = some job → t'.slots[p]? = some slot →
      Traceless place p t'.world (work t'.turn job t'.world slot).2) :
    ∃ σ', Beside peer place callers extra p σ' t (t'.takeTurn p) ∧
      (t'.takeTurn p).world.now = t'.world.now := by
  cases hjob : t'.jobs[p]? with
  | none =>
      rw [takeTurn_of_none (.inl hjob)]
      exact ⟨σ, h, rfl⟩
  | some job =>
      cases hslot : t'.slots[p]? with
      | none =>
          rw [takeTurn_of_none (.inr hslot)]
          exact ⟨σ, h, rfl⟩
      | some slot =>
          obtain ⟨hworld, hreleased⟩ := hdone hjob hslot
          rw [takeTurn_eq hjob hslot]
          generalize work t'.turn job t'.world slot = done at hworld hreleased
          obtain ⟨after, w⟩ := done
          have hworld : w.without place p = t'.world.without place p := hworld
          have hnow : (w.without place p).now = (t'.world.without place p).now :=
            congrArg World.now hworld
          refine ⟨_, ⟨h.position, h.jobs, h.jobs', h.ties, h.length, ?_, h.aligned.skip, h.dated,
            ?_, ?_, rfl, ?_⟩, hnow⟩
          · show (t'.slots.set p after).length = _
            rw [List.length_set, h.length']
          · intro k slot₁ hk
            obtain ⟨slot₂, hslot₂, hsame⟩ := h.slots hk
            refine ⟨slot₂, ?_, hsame.congr ?_⟩
            · show (t'.slots.set p after)[shift p k]? = _
              rw [List.getElem?_set_ne (Ne.symm (shift_ne p k))]
              exact hslot₂
            · intro since hsince
              simp only [if_pos (h.dated.earlier hk hsince)]
          · show t.line = lineWithout p (join t'.line (summoned p job after w))
            rw [← join_lineWithout, summoned_self (hreleased.trans h.released), h.line]
            rfl
          · show t.world = { ({ w with released := [] } : World).without place p with
              now := t.world.now }
            have hcleared : ({ w with released := [] } : World).without place p =
                { w.without place p with released := [] } := rfl
            rw [hcleared, hworld]
            have hempty : (t'.world.without place p).released = [] := by
              show lineWithout p t'.world.released = []
              rw [h.released]
              rfl
            conv_lhs => rw [h.world]
            rw [← hempty]

theorem Beside.cancel (h : Beside peer place callers extra p σ t t') {c c' : Cancellation}
    (hc : c'.without p = some c) :
    Beside peer place callers extra p σ (t.cancel c) (t'.cancel c') := by
  obtain ⟨hticket, hinstant⟩ := Cancellation.without_eq_some.mp hc
  have hheeded : t.slots[c.ticket]?.any Slot.heedsCancellation =
      t'.slots[c'.ticket]?.any Slot.heedsCancellation := by
    rw [hticket]
    cases hslot : t.slots[c.ticket]? with
    | none => rw [h.slot_none hslot]
    | some slot =>
        obtain ⟨slot', hslot', hsame⟩ := h.slots hslot
        rw [hslot']
        exact hsame.heedsCancellation
  have herase : (t'.world.agenda.erase c').filterMap (Cancellation.without p) =
      t.world.agenda.erase c := by
    rw [h.agenda]
    refine filterMap_erase hc ?_ _
    intro d hd
    obtain ⟨hticket', hinstant'⟩ := Cancellation.without_eq_some.mp hd
    obtain ⟨instant, ticket⟩ := c'
    obtain ⟨instant', ticket'⟩ := d
    obtain rfl : ticket = ticket' := hticket.trans hticket'.symm
    obtain rfl : instant = instant' := hinstant.trans hinstant'.symm
    rfl
  refine { h with dated := ⟨h.dated.earlier, h.dated.once⟩, line := ?_, world := ?_ }
  · show (if _ then join t.line [c.ticket] else t.line) =
      lineWithout p (if _ then join t'.line [c'.ticket] else t'.line)
    rw [hheeded, h.line]
    split
    · rw [← join_lineWithout, hticket, lineWithout_cons_shift, lineWithout_nil]
    · rfl
  · show ({ t.world with
        now := max t.world.now c.instant
        agenda := t.world.agenda.erase c } : World) =
      { t'.world.without place p with
        now := max t.world.now c.instant
        agenda := (t'.world.agenda.erase c').filterMap (Cancellation.without p) }
    rw [herase, h.agenda]
    conv_lhs => rw [h.world]

theorem Beside.selfCancel (h : Beside peer place callers extra p σ t t') {c : Cancellation}
    (hc : c.ticket = p) : Beside peer place callers extra p σ t (t'.cancel c) := by
  have herase : (t'.world.agenda.erase c).filterMap (Cancellation.without p) =
      t'.world.agenda.filterMap (Cancellation.without p) :=
    filterMap_erase_of_none (Cancellation.without_self hc) _
  refine { h with line := ?_, world := ?_ }
  · show t.line = lineWithout p (if _ then join t'.line [c.ticket] else t'.line)
    rw [h.line]
    split
    · rw [← join_lineWithout, hc, lineWithout_cons_self]
      rfl
    · rfl
  · show t.world = { t'.world.without place p with
      now := t.world.now
      agenda := (t'.world.agenda.erase c).filterMap (Cancellation.without p) }
    rw [herase]
    exact h.world

/-! ## Events -/

theorem SameSlot.alarm {φ ρ : Type} {slot slot' : Slot φ ρ} (h : SameSlot place p σ slot slot')
    (k : Ticket) (job job' : Job φ ρ) (hbegins : job.begins = job'.begins) :
    alarm? (shift p k) job' slot' = (alarm? k job slot).map (Alarm.moved σ p) := by
  cases h with
  | idle => rfl
  | timed =>
      rw [alarm?, ← hbegins]
      rfl
  | @waiting phase wait since =>
      rw [alarm?, alarm?, Option.map_map]
      rfl
  | ended => rfl

theorem Beside.alarms (h : Beside peer place callers extra p σ t t') {a' : Alarm}
    (hk : a'.ticket = shift p k) : a' ∈ alarmsFrom 0 t'.jobs t'.slots ↔
      ∃ a ∈ alarmsFrom 0 t.jobs t.slots, a.moved σ p = a' := by
  constructor
  · intro ha'
    obtain ⟨job', slot', hjob', hslot', halarm'⟩ := mem_alarms.mp ha'
    rw [hk] at hjob' hslot' halarm'
    obtain ⟨slot, hslot, hsame⟩ := h.slot_of_shift hslot'
    obtain ⟨begins, caller, hjob, hjob₁⟩ := h.job_of_slot hslot
    obtain rfl := Option.some.inj (hjob'.symm.trans hjob₁)
    have hsame' := hsame.alarm k (job (wire peer) place begins (caller.at k))
      (job (wire peer) place begins (caller.at (shift p k))) rfl
    rw [halarm', eq_comm, Option.map_eq_some_iff] at hsame'
    obtain ⟨a, halarm, hmoved⟩ := hsame'
    obtain rfl := alarm?_ticket halarm
    exact ⟨a, mem_alarms.mpr ⟨_, slot, hjob, hslot, halarm⟩, hmoved⟩
  · rintro ⟨a, ha, rfl⟩
    obtain ⟨job, slot, hjob, hslot, halarm⟩ := mem_alarms.mp ha
    obtain ⟨slot', hslot', hsame⟩ := h.slots hslot
    obtain ⟨begins, caller, hjob₁, hjob'⟩ := h.job_of_slot hslot
    obtain rfl := Option.some.inj (hjob.symm.trans hjob₁)
    refine mem_alarms.mpr ⟨_, slot', hjob', hslot', ?_⟩
    have hmoved := hsame.alarm a.ticket (job (wire peer) place begins (caller.at a.ticket))
      (job (wire peer) place begins (caller.at (shift p a.ticket))) rfl
    rw [halarm] at hmoved
    exact hmoved

theorem Beside.alarm_mem (h : Beside peer place callers extra p σ t t') {a : Alarm}
    (ha : a ∈ alarmsFrom 0 t.jobs t.slots) : a.moved σ p ∈ alarmsFrom 0 t'.jobs t'.slots :=
  (h.alarms rfl).mpr ⟨a, ha, rfl⟩

/-- What is no later than all that is to come on the longer timeline is no later than all
that is to come on the other. -/
theorem Beside.restsUntil (h : Beside peer place callers extra p σ t t') {instant : Instant}
    (hrests : t'.RestsUntil instant) : t.RestsUntil instant where
  line := by
    rw [h.line, hrests.line]
    rfl
  alarms a ha := hrests.alarms (a.moved σ p) (h.alarm_mem ha)
  agenda := by
    intro c hc
    rw [h.agenda] at hc
    obtain ⟨c', hc', hwithout⟩ := List.mem_filterMap.mp hc
    rw [← (Cancellation.without_eq_some.mp hwithout).2]
    exact hrests.agenda c' hc'

/-- When the next cancellation is that of another caller, it is the next on both
timelines. -/
theorem Beside.event_cancellation (h : Beside peer place callers extra p σ t t')
    (hnot : ¬ t.slots.all Slot.hasEnded = true) {c c' : Cancellation}
    (hc : c'.without p = some c) (hevent : t'.event? = some (.cancellation c')) :
    t.event? = some (.cancellation c) := by
  obtain ⟨-, hfirst, halarms⟩ := event?_eq_cancellation.mp hevent
  obtain ⟨-, hinstant⟩ := Cancellation.without_eq_some.mp hc
  refine event?_eq_cancellation.mpr ⟨hnot, ?_, ?_⟩
  · rw [h.agenda]
    refine first?_filterMap ?_ hfirst hc
    intro c₁ c₂ hc₂
    exact (Cancellation.without_eq_some.mp hc₂).2.symm
  · intro a ha
    rw [← hinstant]
    exact halarms (a.moved σ p) (h.alarm_mem ha)

theorem Beside.event_alarm (h : Beside peer place callers extra p σ t t')
    (hties : t.ties.Lawful) {a' : Alarm} (hk : a'.ticket = shift p k)
    (hevent : t'.event? = some (.alarm a')) :
    ∃ a, a.instant = a'.instant ∧ a.ticket = k ∧ t.event? = some (.alarm a) := by
  obtain ⟨-, hfirst, hagenda⟩ := event?_eq_alarm.mp hevent
  obtain ⟨a, ha, rfl⟩ := (h.alarms hk).mp (first?_mem hfirst)
  refine ⟨a, rfl, shift_inj hk, event?_eq_alarm.mpr ⟨not_all_ended ha, ?_, ?_⟩⟩
  · refine h.dated.first_alarm hties.toIsOrder ha ?_
    intro b hb hprecedes
    rw [← h.ties] at hfirst
    refine first?_alarm hties.toIsOrder hfirst _ (h.alarm_mem hb) ?_
    rw [precedes_moved hties h.aligned.strict]
    exact hprecedes
  · intro c hc
    rw [h.agenda] at hc
    obtain ⟨c', hc', hwithout⟩ := List.mem_filterMap.mp hc
    rw [← (Cancellation.without_eq_some.mp hwithout).2]
    exact hagenda c' hc'

end

/-! ## Turns -/

section

variable {peer : Peer} {place : Nat} {callers : List (Instant × Caller)}
  {extra : Instant × Caller} {p k : Ticket} {σ : Nat → Nat}
  {t t' t'' : Timeline (Phase (wire peer).Phase) Result}

theorem Beside.turn (h : Beside peer place callers extra p σ t t')
    (hnow : t.world.now = t'.world.now) (k : Ticket) :
    Beside peer place callers extra p σ ((t.leaveLine k).takeTurn k)
        ((t'.leaveLine (shift p k)).takeTurn (shift p k)) ∧
      ((t.leaveLine k).takeTurn k).world.now =
        ((t'.leaveLine (shift p k)).takeTurn (shift p k)).world.now := by
  have hleft : Beside peer place callers extra p σ (t.leaveLine k)
      (t'.leaveLine (shift p k)) := by
    refine { h with dated := ⟨h.dated.earlier, h.dated.once⟩, line := ?_ }
    show t.line.erase k = lineWithout p (t'.line.erase (shift p k))
    rw [h.line, lineWithout_erase]
  exact hleft.takeTurn hnow k

/-- In no turn that leads from one timeline to the other the caller leaves a trace. -/
def Unseen (place : Nat) (p : Ticket) (t' t'' : Timeline (Phase (wire peer).Phase) Result) :
    Prop :=
  ∀ instant job slot, Next (some p) (t'.passTo instant) t'' → t'.jobs[p]? = some job →
    t'.slots[p]? = some slot →
    Traceless place p (t'.passTo instant).world (work t'.turn job (t'.passTo instant).world slot).2

theorem Beside.turn_self (h : Beside peer place callers extra p σ t t')
    (hunseen : Unseen place p t' t'') {instant : Instant}
    (hnext : Next (some p) (t'.passTo instant) t'') :
    ∃ σ', Beside peer place callers extra p σ' t t'' ∧
      t''.world.now = (t'.passTo instant).world.now := by
  have hpassed := h.pass t.world.now instant
  rw [passTo_of_le (Int.le_refl _)] at hpassed
  have hleft : Beside peer place callers extra p σ t ((t'.passTo instant).leaveLine p) := by
    refine { hpassed with line := ?_ }
    show t.line = lineWithout p (t'.line.erase p)
    rw [h.line, lineWithout_erase_self]
  obtain ⟨σ', hbeside, hnow⟩ := hleft.selfTurn fun hjob hslot => hunseen _ _ _ hnext hjob hslot
  rw [hnext.eq_takeTurn]
  exact ⟨σ', hbeside, hnow⟩

/-! ## Steps in any order -/

/-- Another caller that may take a turn on the longer timeline may do so on the other. -/
theorem Beside.next (h : Beside peer place callers extra p σ t t')
    (hnow : t.world.now = t'.world.now) {i : Ticket} (hi : i = shift p k)
    (hnext : Next (some i) t' t'') : Next (some k) t ((t.leaveLine k).takeTurn k) := by
  cases hnext with
  | turn hin =>
      refine .turn ?_
      rw [h.line, mem_lineWithout, ← hi]
      exact hin
  | @alarm _ a' ha' hdue =>
      obtain ⟨a, ha, rfl⟩ := (h.alarms hi).mp ha'
      obtain rfl : a.ticket = k := shift_inj hi
      refine .alarm ha ?_
      rw [hnow]
      exact hdue

/-- **Whatever the order of turns, the timelines stay beside each other**: a step of the longer one
is one of the other, or none when it is the caller's own. -/
theorem Beside.prompt (h : Beside peer place callers extra p σ t t')
    (hnow : t.world.now = t'.world.now) (hunseen : Unseen place p t' t'')
    {label : Option Ticket} (hprompt : Prompt label t' t'') :
    ∃ σ' t₂, (t₂ = t ∨ ∃ label, Prompt label t t₂) ∧ Beside peer place callers extra p σ' t₂ t'' ∧
      t₂.world.now = t''.world.now := by
  obtain ⟨hnext, hrests⟩ := hprompt
  cases label with
  | some i =>
      rcases eq_or_shift p i with rfl | ⟨k, rfl⟩
      · rw [← passTo_of_le (Int.le_refl t'.world.now)] at hnext
        obtain ⟨σ', hbeside, hnow'⟩ := h.turn_self hunseen hnext
        rw [passTo_of_le (Int.le_refl _)] at hnow'
        exact ⟨σ', t, .inl rfl, hbeside, hnow.trans hnow'.symm⟩
      · obtain ⟨hbeside, hnow'⟩ := h.turn hnow k
        rw [← hnext.eq_takeTurn] at hbeside hnow'
        exact ⟨σ, _, .inr ⟨some k, h.next hnow rfl hnext, nofun⟩, hbeside, hnow'⟩
  | none =>
      cases hnext with
      | passage _ instant =>
          have hnow' : (t.passTo instant).world.now = (t'.passTo instant).world.now :=
            congrArg (max · instant) hnow
          refine ⟨σ, t.passTo instant, .inr ⟨none, .passage t instant, ?_⟩, h.pass instant instant,
            hnow'⟩
          intro _ hlt
          rw [hnow, hnow'] at hlt
          rw [hnow']
          exact h.restsUntil (hrests rfl hlt)
      | @cancellation _ c' hc' hdue =>
          have hsame' : (t'.cancel c').world.now = t'.world.now := Int.max_eq_left hdue
          rcases eq_or_shift p c'.ticket with hself | ⟨k, hk⟩
          · exact ⟨σ, t, .inl rfl, h.selfCancel hself, hnow.trans hsame'.symm⟩
          · have hc : c'.without p = some ⟨c'.instant, k⟩ :=
              Cancellation.without_eq_some.mpr ⟨hk, rfl⟩
            have hin : ⟨c'.instant, k⟩ ∈ t.world.agenda := by
              rw [h.agenda]
              exact List.mem_filterMap.mpr ⟨c', hc', hc⟩
            have hdue' : c'.instant ≤ t.world.now := hnow.symm ▸ hdue
            have hsame : (t.cancel ⟨c'.instant, k⟩).world.now = t.world.now :=
              Int.max_eq_left hdue'
            refine ⟨σ, _, .inr ⟨none, .cancellation hin hdue', ?_⟩, h.cancel hc, ?_⟩
            · intro _ hlt
              rw [hsame] at hlt
              exact absurd hlt (Int.lt_irrefl _)
            · rw [hsame, hsame', hnow]

/-! ## Steps of a run -/

/-- The clocks are the same, or that of the longer timeline is ahead while all others
rest. -/
def InStep {φ ρ : Type} (t t' : Timeline φ ρ) : Prop :=
  t.world.now = t'.world.now ∨
    t.world.now ≤ t'.world.now ∧ t.RestsUntil t'.world.now

/-- When the clock of the longer timeline goes on to an instant until which all rest, the
other may stay. -/
theorem InStep.wait (h : InStep t t') {instant : Instant} (hrests : t.RestsUntil instant) :
    InStep t (t'.passTo instant) := by
  have hle : t.world.now ≤ t'.world.now := by
    rcases h with heq | ⟨hle, -⟩
    · exact Int.le_of_eq heq
    · exact hle
  show t.world.now = max t'.world.now instant ∨ t.world.now ≤ max t'.world.now instant ∧
    t.RestsUntil (max t'.world.now instant)
  rcases Int.le_total t'.world.now instant with hlater | hearlier
  · rw [Int.max_eq_right hlater]
    exact .inr ⟨Int.le_trans hle hlater, hrests⟩
  · rw [Int.max_eq_left hearlier]
    exact h

theorem InStep.meet (h : InStep t t') {instant : Instant}
    (hlater : ∀ {bound}, t.RestsUntil bound → bound ≤ instant) :
    max t.world.now instant = max t'.world.now instant := by
  rcases h with heq | ⟨hle, hrests⟩
  · rw [heq]
  · have hbound := hlater hrests
    rw [Int.max_eq_right hbound, Int.max_eq_right (Int.le_trans hle hbound)]

theorem InStep.now_eq (h : InStep t t')
    (hdue : ∀ {bound}, t.RestsUntil bound → bound ≤ t.world.now) :
    t.world.now = t'.world.now := by
  rcases h with heq | ⟨hle, hrests⟩
  · exact heq
  · exact Int.le_antisymm hle (hdue hrests)

theorem Beside.line_eq_nil (h : Beside peer place callers extra p σ t t') (hline : t'.line = []) :
    t.line = [] := by
  rw [h.line, hline]
  rfl

theorem Beside.jobs_length (h : Beside peer place callers extra p σ t t') :
    t.jobs.length = t.slots.length := by
  rw [h.jobs, numbered_crowd_length, h.length]

theorem Beside.jobs_length' (h : Beside peer place callers extra p σ t t') :
    t'.jobs.length = t'.slots.length := by
  rw [h.jobs', numbered_crowd_length, List.length_insertIdx_of_le_length h.position, h.length']

theorem Beside.pausesBriefly (h : Beside peer place callers extra p σ t t') :
    t.PausesBriefly k ↔ t'.PausesBriefly (shift p k) := by
  constructor
  · rintro ⟨phase, wait, since, hslot, hbrief⟩
    obtain ⟨slot', hslot', hsame⟩ := h.slots hslot
    cases hsame with
    | waiting => exact ⟨phase, wait, _, hslot', hbrief⟩
  · rintro ⟨phase, wait, since, hslot', hbrief⟩
    obtain ⟨slot, hslot, hsame⟩ := h.slot_of_shift hslot'
    cases hsame with
    | waiting => exact ⟨phase, wait, _, hslot, hbrief⟩

theorem Beside.brief?_none (h : Beside peer place callers extra p σ t t') (hone : OneBrief t')
    (hnone : t'.brief? = none) : t.brief? = none := by
  cases hbrief : t.brief? with
  | none => rfl
  | some a =>
      have hpauses := h.pausesBriefly.mp (pausesBriefly_of_brief? hbrief)
      obtain ⟨a', hsome, -⟩ := hone.next h.jobs_length' hpauses
      cases hnone.symm.trans hsome

theorem Beside.step_brief (h : Beside peer place callers extra p σ t t') (hclock : InStep t t')
    (hone : OneBrief t) (hunseen : Unseen place p t' t'') {a' : Alarm}
    (hbrief : t'.brief? = some a') (hnext : Next (some a'.ticket) t' t'') :
    ∃ σ' t₂, (t₂ = t ∨ t.step? = some t₂) ∧ Beside peer place callers extra p σ' t₂ t'' ∧
      InStep t₂ t'' := by
  rcases eq_or_shift p a'.ticket with hself | ⟨k, hk⟩
  · rw [hself, ← passTo_of_le (Int.le_refl t'.world.now)] at hnext
    obtain ⟨σ', hbeside, hnow⟩ := h.turn_self hunseen hnext
    rw [passTo_of_le (Int.le_refl _)] at hnow
    refine ⟨σ', t, .inl rfl, hbeside, ?_⟩
    rw [InStep, hnow]
    exact hclock
  · have hpauses : t.PausesBriefly k := by
      rw [h.pausesBriefly, ← hk]
      exact pausesBriefly_of_brief? hbrief
    obtain ⟨a, hsome, rfl⟩ := hone.next h.jobs_length hpauses
    obtain ⟨ha, hdue⟩ := brief?_mem hsome
    have hnow : t.world.now = t'.world.now :=
      hclock.now_eq fun hrests => Int.le_trans (hrests.alarms a ha) hdue
    obtain ⟨hbeside, hnow'⟩ := h.turn hnow a.ticket
    rw [← hk, ← hnext.eq_takeTurn] at hbeside hnow'
    exact ⟨σ, _, .inr (step?_brief hsome), hbeside, .inl hnow'⟩

theorem Beside.step_head (h : Beside peer place callers extra p σ t t') (hclock : InStep t t')
    (hunseen : Unseen place p t' t'') (hbrief : t.brief? = none) {i : Ticket}
    {rest : List Ticket} (hline : t'.line = i :: rest) (hnext : Next (some i) t' t'') :
    ∃ σ' t₂, (t₂ = t ∨ t.step? = some t₂) ∧ Beside peer place callers extra p σ' t₂ t'' ∧
      InStep t₂ t'' := by
  rcases eq_or_shift p i with rfl | ⟨k, rfl⟩
  · rw [← passTo_of_le (Int.le_refl t'.world.now)] at hnext
    obtain ⟨σ', hbeside, hnow⟩ := h.turn_self hunseen hnext
    rw [passTo_of_le (Int.le_refl _)] at hnow
    refine ⟨σ', t, .inl rfl, hbeside, ?_⟩
    rw [InStep, hnow]
    exact hclock
  · have hline₁ : t.line = k :: lineWithout p rest := by
      rw [h.line, hline, lineWithout_cons_shift]
    have hnow : t.world.now = t'.world.now := by
      refine hclock.now_eq fun hrests => ?_
      rw [hrests.line] at hline₁
      cases hline₁
    obtain ⟨hbeside, hnow'⟩ := h.turn hnow k
    rw [← hnext.eq_takeTurn] at hbeside hnow'
    exact ⟨σ, _, .inr (step?_head hbrief hline₁), hbeside, .inl hnow'⟩

/-- A cancellation comes: it is that of the caller, or the other timeline's next event too. -/
theorem Beside.step_cancellation (h : Beside peer place callers extra p σ t t')
    (hclock : InStep t t') (hbrief : t.brief? = none) (hline : t'.line = [])
    (hothers : ¬ t.slots.all Slot.hasEnded = true)
    {c' : Cancellation} (hevent : t'.event? = some (.cancellation c')) :
    ∃ t₂, (t₂ = t ∨ t.step? = some t₂) ∧ Beside peer place callers extra p σ t₂ (t'.cancel c') ∧
      InStep t₂ (t'.cancel c') := by
  rcases eq_or_shift p c'.ticket with hself | ⟨k, hk⟩
  · have hrests := h.restsUntil (restsUntil_cancellation hline hevent)
    exact ⟨t, .inl rfl, h.selfCancel hself, hclock.wait hrests⟩
  · have hc : c'.without p = some ⟨c'.instant, k⟩ :=
      Cancellation.without_eq_some.mpr ⟨hk, rfl⟩
    have hevent' := h.event_cancellation hothers hc hevent
    obtain ⟨-, hfirst, -⟩ := event?_eq_cancellation.mp hevent'
    refine ⟨t.cancel ⟨c'.instant, k⟩, .inr ?_, h.cancel hc, .inl ?_⟩
    · rw [step?_event hbrief (h.line_eq_nil hline), hevent']
      rfl
    · refine hclock.meet ?_
      intro bound hbound
      exact hbound.agenda _ (first?_mem hfirst)

/-- A timer goes off: it is that of the caller, or the other timeline's next event too. -/
theorem Beside.step_alarm (h : Beside peer place callers extra p σ t t') (hclock : InStep t t')
    (hties : t.ties.Lawful) (hunseen : Unseen place p t' t'') (hbrief : t.brief? = none)
    (hline : t'.line = []) {a' : Alarm} (hevent : t'.event? = some (.alarm a'))
    (hnext : Next (some a'.ticket) (t'.passTo a'.instant) t'') :
    ∃ σ' t₂, (t₂ = t ∨ t.step? = some t₂) ∧ Beside peer place callers extra p σ' t₂ t'' ∧
      InStep t₂ t'' := by
  rcases eq_or_shift p a'.ticket with hself | ⟨k, hk⟩
  · rw [hself] at hnext
    obtain ⟨σ', hbeside, hnow⟩ := h.turn_self hunseen hnext
    refine ⟨σ', t, .inl rfl, hbeside, ?_⟩
    have hclock' := hclock.wait (h.restsUntil (restsUntil_alarm hline hevent))
    rwa [InStep, ← hnow] at hclock'
  · obtain ⟨a, hinstant, rfl, hevent'⟩ := h.event_alarm hties hk hevent
    obtain ⟨-, hfirst, -⟩ := event?_eq_alarm.mp hevent'
    have hnow : (t.passTo a.instant).world.now = (t'.passTo a'.instant).world.now := by
      rw [hinstant]
      refine hclock.meet ?_
      intro bound hbound
      rw [← hinstant]
      exact hbound.alarms _ (first?_mem hfirst)
    obtain ⟨hbeside, hnow'⟩ := (h.pass a.instant a'.instant).turn hnow a.ticket
    rw [← hk, ← hnext.eq_takeTurn] at hbeside hnow'
    refine ⟨σ, _, .inr ?_, hbeside, .inl hnow'⟩
    rw [step?_event hbrief (h.line_eq_nil hline), hevent',
      leaveLine_passTo (h.line_eq_nil hline)]
    rfl

/-- **The runs stay beside each other**: a step of the longer one is one of the other, or none when
it is the caller's own.  It is taken for granted that not all others have ended when a cancellation
comes. -/
theorem Beside.step (h : Beside peer place callers extra p σ t t') (hclock : InStep t t')
    (hties : t.ties.Lawful) (hone : OneBrief t) (hone' : OneBrief t')
    (hunseen : Unseen place p t' t'')
    (hothers : t'.brief? = none → t'.line = [] → ¬ t.slots.all Slot.hasEnded = true)
    (hstep : t'.step? = some t'') :
    ∃ σ' t₂, (t₂ = t ∨ t.step? = some t₂) ∧ Beside peer place callers extra p σ' t₂ t'' ∧
      InStep t₂ t'' := by
  rcases step?_cases hstep with ⟨a, hsome, hnext⟩ | ⟨hnone, i, rest, hline, hnext⟩ |
    ⟨hnone, hline, c, hevent, rfl⟩ | ⟨hnone, hline, a, hevent, hnext⟩
  · exact h.step_brief hclock hone hunseen hsome hnext
  · exact h.step_head hclock hunseen (h.brief?_none hone' hnone) hline hnext
  · exact ⟨σ, h.step_cancellation hclock (h.brief?_none hone' hnone) hline (hothers hnone hline)
      hevent⟩
  · exact h.step_alarm hclock hties hunseen (h.brief?_none hone' hnone) hline hevent hnext

/-! ## The beginning -/

theorem without_of_unqueued {g : Grant} (h : g.queue = []) (p : Ticket) : g.without p = g := by
  rw [Grant.without, h, List.filterMap_nil, ← h]

theorem modify_without {w : World} {g : Grant} (hg : w.grants[place]? = some g)
    (hqueue : g.queue = []) : w.grants.modify place (Grant.without p) = w.grants := by
  refine List.ext_getElem? fun k => ?_
  rw [List.getElem?_modify]
  by_cases heq : place = k
  · subst heq
    rw [hg]
    simp [without_of_unqueued hqueue]
  · simp [heq]

theorem cancellations_without (hp : p ≤ callers.length) (now : Instant) :
    ((crowd (wire peer) place (numbered (callers.insertIdx p extra))).filterMap fun job =>
        job.caller.cancellation? now).filterMap (Cancellation.without p) =
      (crowd (wire peer) place (numbered callers)).filterMap fun job =>
        job.caller.cancellation? now := by
  rw [List.filterMap_filterMap,
    filterMap_eq_range _ (crowd (wire peer) place (numbered (callers.insertIdx p extra))),
    filterMap_eq_range _ (crowd (wire peer) place (numbered callers)), numbered_crowd_length,
    numbered_crowd_length, List.length_insertIdx_of_le_length hp, filterMap_range_shift _ _ hp]
  · refine List.filterMap_congr fun k _ => ?_
    rw [crowd_insertIdx_shift, numbered_crowd_getElem?]
    cases callers[k]? with
    | none => rfl
    | some entry =>
        show (((entry.2.at (shift p k)).cancellation? now).bind (Cancellation.without p)) =
          (entry.2.at k).cancellation? now
        simp only [Caller.cancellation?, Caller.at]
        split
        · rfl
        · split
          · rfl
          · exact Cancellation.without_eq_some.mpr ⟨rfl, rfl⟩
  · rw [numbered_crowd_getElem?, List.getElem?_insertIdx_self, if_pos hp]
    show (((extra.2.at p).cancellation? now).bind (Cancellation.without p)) = none
    simp only [Caller.cancellation?, Caller.at]
    split
    · rfl
    · split
      · rfl
      · exact Cancellation.without_self rfl

theorem AtRest.beside {g : Grant} {world : World} (h : AtRest place g world)
    (hp : p ≤ callers.length) (ties : Ties) :
    Beside peer place callers extra p id
      (ofJobs world (crowd (wire peer) place (numbered callers)) ties)
      (ofJobs world (crowd (wire peer) place (numbered (callers.insertIdx p extra))) ties) where
  position := hp
  jobs := rfl
  jobs' := rfl
  ties := rfl
  length := by simp [ofJobs]
  length' := by simp [ofJobs, List.length_insertIdx_of_le_length hp]
  aligned := ⟨strictMono_id, fun _ => rfl⟩
  dated := by
    have hidle {k : Ticket} {slot : Slot (Phase (wire peer).Phase) Result}
        (hslot : (ofJobs world (crowd (wire peer) place (numbered callers)) ties).slots[k]? =
          some slot) : since? slot = none := by
      rw [(ofJobs_slots_iff.mp hslot).1]
      rfl
    refine ⟨?_, ?_⟩
    · intro k slot since hslot hsince
      rw [hidle hslot] at hsince
      cases hsince
    · intro i k slot slot' since hslot _ hsince _
      rw [hidle hslot] at hsince
      cases hsince
  slots := by
    intro k slot hslot
    simp only [ofJobs, List.getElem?_map, numbered_crowd_getElem?, Option.map_map,
      Option.map_eq_some_iff] at hslot
    obtain ⟨entry, hentry, rfl⟩ := hslot
    refine ⟨.idle none, ?_, .idle⟩
    simp only [ofJobs, List.getElem?_map, crowd_insertIdx_shift, hentry, Option.map_some]
  line := by
    show List.range _ = lineWithout p (List.range _)
    rw [numbered_crowd_length, numbered_crowd_length, List.length_insertIdx_of_le_length hp,
      lineWithout, filterMap_range_shift _ (unshift_self p) hp]
    simp
  released := h.unreleased
  world := by
    show ({ world with agenda := _ } : World) = { world with
      grants := world.grants.modify place (Grant.without p)
      released := lineWithout p world.released
      agenda := ((crowd (wire peer) place (numbered (callers.insertIdx p extra))).filterMap
        fun job => job.caller.cancellation? world.now).filterMap (Cancellation.without p) }
    rw [modify_without h.grant h.unqueued, cancellations_without hp, h.unreleased]
    rfl

end

end Acquire

end BearerAuth
