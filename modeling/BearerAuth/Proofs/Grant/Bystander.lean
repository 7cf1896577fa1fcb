import BearerAuth.Proofs.Grant.Watching

/-!
# A caller that waits and gives up

A caller that comes while another fetches joins the queue.  When its own cancellation or deadline
comes before the end of that fetch, it leaves the queue again and ends, and nobody else can tell
that it was there: the others end with the same results at the same times and with the same headers,
and the same exchanges are made (`bystander_unseen`).

Step by step what happens with the caller stays beside what happens without it: on a run, in
whatever lawful order timers of one instant go off (`GivesUpAt.beside`), and in any order of turns
in which nobody is kept waiting (`AtRest.follows_givesUp`).
-/

namespace BearerAuth

open Transport Timeline

namespace Acquire

/-! ## Both timelines -/

/-- Callers of a grant none of whom has begun. -/
abbrev gathered (peer : Peer) (place : Nat) (callers : List (Instant × Caller)) (world : World)
    (ties : Ties) : Timeline (Phase (wire peer).Phase) Result :=
  ofJobs world (crowd (wire peer) place (numbered callers)) ties

section

variable {peer : Peer} {place : Nat} {callers : List (Instant × Caller)} {g g' : Grant}
  {extra : Instant × Caller} {p f : Ticket} {σ : Nat → Nat} {ends own : Instant} {world : World}
  {t t' t'' start start' : Timeline (Phase (wire peer).Phase) Result} {turns more : Nat}

theorem extra_entry (hp : p ≤ callers.length) :
    (numbered (callers.insertIdx p extra))[p]? = some (extra.1, extra.2.at p) := by
  rw [numbered_getElem?, List.getElem?_insertIdx_self, if_pos hp]
  rfl

/-- Somebody else than the caller has not ended. -/
def OthersGoOn (p : Ticket) (t : Timeline (Phase (wire peer).Phase) Result) : Prop :=
  ∃ k slot, k ≠ p ∧ t.slots[k]? = some slot ∧ slot.hasEnded = false

theorem OthersGoOn.not_all_ended (h : OthersGoOn p t')
    (hbeside : Beside peer place callers extra p σ t t') : ¬ t.slots.all Slot.hasEnded = true := by
  obtain ⟨k, slot', hne, hslot', hnot⟩ := h
  rcases eq_or_shift p k with rfl | ⟨k, rfl⟩
  · exact absurd rfl hne
  · obtain ⟨slot, hslot, hsame⟩ := hbeside.slot_of_shift hslot'
    intro hall
    have hended := List.all_eq_true.mp hall slot (List.mem_of_getElem? hslot)
    rw [hsame.hasEnded, hnot] at hended
    cases hended

theorem othersGoOn_of_fetches {reply : Reply} {wait : Wait} {since : Nat}
    (hf : t.slots[f]? = some (.waiting (.fetching reply) wait since)) (hne : f ≠ p) :
    OthersGoOn p t :=
  ⟨f, _, hne, hf, rfl⟩

/-! ### In any order -/

/-- Without the caller the others come as far in an order of turns. -/
def Follows (peer : Peer) (place : Nat) (callers : List (Instant × Caller))
    (extra : Instant × Caller) (p : Ticket)
    (start t' : Timeline (Phase (wire peer).Phase) Result) : Prop :=
  ∃ turns σ t, Promptly start turns t ∧ Beside peer place callers extra p σ t t' ∧
    t.world.now = t'.world.now

theorem Follows.prompt (h : Follows peer place callers extra p start t')
    (hunseen : Unseen place p t' t'') {label : Option Ticket} (hprompt : Prompt label t' t'') :
    Follows peer place callers extra p start t'' := by
  obtain ⟨turns', σ, t, hshort, hbeside, hnow⟩ := h
  obtain ⟨σ', t₂, hstays, hbeside', hnow'⟩ := hbeside.prompt hnow hunseen hprompt
  rcases hstays with rfl | ⟨label', hprompt'⟩
  · exact ⟨turns', σ', t₂, hshort, hbeside', hnow'⟩
  · obtain ⟨turns₂, hshort'⟩ := hshort.extend hprompt'
    exact ⟨turns₂, σ', t₂, hshort', hbeside', hnow'⟩

theorem Follows.before (h : Follows peer place callers extra p start t')
    (horderly : Orderly peer place (numbered (callers.insertIdx p extra)) g t')
    (hp : p ≤ callers.length) {since since' : Option Nat}
    (hidle : t'.slots[p]? = some (.idle since)) (hidle' : t''.slots[p]? = some (.idle since'))
    {label : Option Ticket} (hprompt : Prompt label t' t'') :
    Follows peer place callers extra p start t'' :=
  h.prompt (unseen_of_idle horderly (extra_entry hp) rfl hidle (.inl ⟨since', hidle'⟩)) hprompt

theorem Follows.after (h : Follows peer place callers extra p start t')
    (horderly : Orderly peer place (numbered (callers.insertIdx p extra)) g t')
    (hp : p ≤ callers.length) (hown : extra.2.cancelAt = some own ∨ extra.2.deadline = some own)
    (hlt : own < ends)
    (haside : Watching place f p ends own t' ∧ t'.world.now < ends ∨ Settled p t')
    {label : Option Ticket} (hprompt : Prompt label t' t'') :
    Follows peer place callers extra p start t'' ∧
      (Watching place f p ends own t'' ∧ t''.world.now < ends ∨ Settled p t'') := by
  have hentry := @extra_entry callers extra p hp
  rcases haside with ⟨hwatching, hnow⟩ | hsettled
  · exact ⟨h.prompt (hwatching.unseen horderly hentry rfl) hprompt,
      hwatching.prompt hnow horderly numbered_ticket hentry hown hlt hprompt⟩
  · exact ⟨h.prompt (hsettled.unseen horderly hentry rfl) hprompt,
      .inr (hsettled.next horderly hprompt.next)⟩

theorem Watching.others (h : Watching place f p ends own t) : OthersGoOn p t := by
  obtain ⟨reply, wait, since, hf, -⟩ := h.fetches
  exact othersGoOn_of_fetches hf h.ne

theorem Settled.others (h : Settled p t) (hone : OneBrief t)
    (hlength : t.jobs.length = t.slots.length) (hnone : t.brief? = none) (hline : t.line = [])
    (hstep : t.step? = some t') : OthersGoOn p t := by
  cases h with
  | returning _ hslot hbrief =>
      obtain ⟨a, hsome, -⟩ := hone.next hlength ⟨_, _, _, hslot, hbrief⟩
      cases hnone.symm.trans hsome
  | ended hended =>
      rw [step?_event hnone hline, Option.map_eq_some_iff] at hstep
      obtain ⟨event, hevent, -⟩ := hstep
      rw [event?] at hevent
      split at hevent
      · cases hevent
      · next hnot =>
          simp only [List.all_eq_true, not_forall] at hnot
          obtain ⟨slot, hin, hslot⟩ := hnot
          obtain ⟨k, hk⟩ := List.mem_iff_getElem?.mp hin
          refine ⟨k, slot, ?_, hk, Bool.eq_false_iff.mpr hslot⟩
          rintro rfl
          obtain rfl := Option.some.inj (hended.symm.trans hk)
          exact hslot rfl

theorem AtRest.orderly_run (hrest : AtRest place g world) (ties : Ties) (n : Nat) :
    ∃ g', Orderly peer place (numbered callers) g'
      ((gathered peer place callers world ties).run n) :=
  (hrest.orderly numbered_ticket).reaches numbered_ticket (run_reaches n _)

theorem oneBrief_gathered (callers : List (Instant × Caller)) (world : World) (ties : Ties)
    (n : Nat) : OneBrief ((gathered peer place callers world ties).run n) := by
  refine oneBrief_run ?_ world ties n
  intro job hjob
  obtain ⟨entry, -, rfl⟩ := List.mem_map.mp hjob
  exact job_brisk (wire_brisk peer) place entry.1 entry.2

/-- In the `n`-th step of a run a caller begins while another fetches, and it gives up before the
end of that fetch. -/
structure GivesUpAt (start : Timeline (Phase (wire peer).Phase) Result) (p : Ticket)
    (caller : Caller) (n : Nat) (f : Ticket) (ends own : Instant) : Prop
    extends GivesUp (start.run n) f caller ends own where
  idle : ∃ since, (start.run n).slots[p]? = some (.idle since)
  begins : ∀ since, (start.run (n + 1)).slots[p]? ≠ some (.idle since)

/-- From the next step on the caller stands by or has settled. -/
theorem AtRest.stands (hrest : AtRest place g world) (ties : Ties)
    {entry : Instant × Caller} (hentry : (numbered callers)[p]? = some entry) {n : Nat}
    (h : GivesUpAt (gathered peer place callers world ties) p entry.2 n f ends own) (more : Nat) :
    Watching place f p ends own ((gathered peer place callers world ties).run (n + 1 + more)) ∨
      Settled p ((gathered peer place callers world ties).run (n + 1 + more)) := by
  have horderly (m : Nat) := @AtRest.orderly_run peer place callers g world hrest ties m
  have hone (m : Nat) := @oneBrief_gathered peer place callers world ties m
  induction more with
  | zero =>
      obtain ⟨g', horderly⟩ := horderly n
      obtain ⟨since, hidle⟩ := h.idle
      have hsucc := run_succ n (gathered peer place callers world ties)
      cases hstep : ((gathered peer place callers world ties).run n).step? with
      | none =>
          rw [hstep, Option.getD_none] at hsucc
          exact absurd (hsucc ▸ hidle) (h.begins since)
      | some t' =>
          rw [hstep, Option.getD_some] at hsucc
          exact watching_of_step horderly numbered_ticket hentry h.toGivesUp hidle h.begins
            (hsucc ▸ hstep)
  | succ more ih =>
      obtain ⟨g', horderly⟩ := horderly (n + 1 + more)
      rw [← Nat.add_assoc, run_succ]
      cases hstep : ((gathered peer place callers world ties).run (n + 1 + more)).step? with
      | none => exact ih
      | some t' =>
          rw [Option.getD_some]
          rcases ih with hwatching | hsettled
          · exact hwatching.step horderly numbered_ticket (hone _) hentry h.leaves h.early hstep
          · obtain ⟨instant, label, hnext, -⟩ :=
              (hone _).step (jobs_length_run world _ ties _) hstep
            have hpassed := hsettled.next horderly (.passage _ instant)
            exact .inr (hpassed.next (horderly.passTo instant) hnext)

/-- What the caller does in any step of the run is not seen, and while it is the turn of nobody
else somebody else goes on. -/
theorem AtRest.hidden (hrest : AtRest place g world) (ties : Ties)
    {entry : Instant × Caller} (hentry : (numbered callers)[p]? = some entry) {n : Nat}
    (h : GivesUpAt (gathered peer place callers world ties) p entry.2 n f ends own) {m : Nat}
    (hstep : ((gathered peer place callers world ties).run m).step? = some t') :
    Unseen place p ((gathered peer place callers world ties).run m) t' ∧
      (((gathered peer place callers world ties).run m).brief? = none →
        ((gathered peer place callers world ties).run m).line = [] →
        OthersGoOn p ((gathered peer place callers world ties).run m)) := by
  obtain ⟨g', horderly⟩ := @AtRest.orderly_run peer place callers g world hrest ties m
  have hticket := numbered_ticket p entry hentry
  have hsucc : (gathered peer place callers world ties).run (m + 1) = t' := by
    rw [run_succ, hstep]
    rfl
  obtain ⟨since, hidle⟩ := h.idle
  obtain ⟨reply, wait, since', hfetches, -⟩ := h.fetches
  have hne : f ≠ p := by
    rintro rfl
    cases hfetches.symm.trans hidle
  rcases Nat.lt_trichotomy m n with hlt | rfl | hlt
  · have hreaches := run_reaches_of_le (Nat.le_of_lt hlt) (gathered peer place callers world ties)
    obtain ⟨since₁, hidle₁⟩ := hreaches.idle hidle
    have hidle₂ := (run_reaches_of_le hlt (gathered peer place callers world ties)).idle hidle
    rw [hsucc] at hidle₂
    refine ⟨unseen_of_idle horderly hentry hticket hidle₁ (.inl hidle₂), fun _ _ => ?_⟩
    have hlength : f < ((gathered peer place callers world ties).run m).slots.length := by
      rw [← hreaches.slots_length]
      exact (List.getElem?_eq_some_iff.mp hfetches).1
    refine ⟨f, _, hne, List.getElem?_eq_getElem hlength, ?_⟩
    cases hslot : ((gathered peer place callers world ties).run m).slots[f] with
    | idle since => rfl
    | waiting phase wait since => rfl
    | ended result w =>
        have hended := hreaches.ended ((List.getElem?_eq_getElem hlength).trans
          (congrArg some hslot))
        cases hfetches.symm.trans hended
  · have hbusy : g'.busy = true := horderly.attendance.busy.mpr ⟨f, roleAt_of_slot hfetches⟩
    exact ⟨unseen_of_idle horderly hentry hticket hidle (.inr hbusy),
      fun _ _ => othersGoOn_of_fetches hfetches hne⟩
  · obtain ⟨more, rfl⟩ := Nat.exists_eq_add_of_le hlt
    rcases hrest.stands ties hentry h more with hwatching | hsettled
    · exact ⟨hwatching.unseen horderly hentry hticket, fun _ _ => hwatching.others⟩
    · exact ⟨hsettled.unseen horderly hentry hticket, fun hnone hline =>
        hsettled.others (oneBrief_gathered callers world ties _)
          (jobs_length_run world _ ties _) hnone hline hstep⟩

end

section

variable {peer : Peer} {place : Nat} {callers : List (Instant × Caller)} {g : Grant}
  {extra : Instant × Caller} {p f : Ticket} {σ : Nat → Nat} {ends own : Instant} {world : World}
  {t t' : Timeline (Phase (wire peer).Phase) Result} {ties : Ties}

/-- Whatever the run with the caller comes to, the run without it comes to the same. -/
theorem GivesUpAt.beside (hrest : AtRest place g world) (hp : p ≤ callers.length)
    (hties : ties.Lawful) {n : Nat}
    (h : GivesUpAt (gathered peer place (callers.insertIdx p extra) world ties) p extra.2 n f ends
      own) (m : Nat) :
    ∃ j σ, Beside peer place callers extra p σ ((gathered peer place callers world ties).run j)
        ((gathered peer place (callers.insertIdx p extra) world ties).run m) ∧
      InStep ((gathered peer place callers world ties).run j)
        ((gathered peer place (callers.insertIdx p extra) world ties).run m) := by
  have hgives : GivesUpAt (gathered peer place (callers.insertIdx p extra) world ties) p
      (extra.2.at p) n f ends own := { h with }
  induction m with
  | zero => exact ⟨0, id, hrest.beside hp ties, .inl rfl⟩
  | succ m ih =>
      obtain ⟨j, σ, hbeside, hclock⟩ := ih
      rw [run_succ]
      cases hstep : ((gathered peer place (callers.insertIdx p extra) world ties).run m).step? with
      | none => exact ⟨j, σ, hbeside, hclock⟩
      | some t' =>
          rw [Option.getD_some]
          obtain ⟨hunseen, hothers⟩ := hrest.hidden ties (extra_entry hp) hgives hstep
          have hlawful : ((gathered peer place callers world ties).run j).ties.Lawful := by
            rw [(run_reaches j _).ties_eq]
            exact hties
          obtain ⟨σ', t₂, hstays, hbeside', hclock'⟩ := hbeside.step hclock hlawful
            (oneBrief_gathered callers world ties j) (oneBrief_gathered _ world ties m) hunseen
            (fun hnone hline => (hothers hnone hline).not_all_ended hbeside) hstep
          rcases hstays with rfl | hsome
          · exact ⟨j, σ', hbeside', hclock'⟩
          · refine ⟨j + 1, σ', ?_⟩
            rw [run_succ, hsome]
            exact ⟨hbeside', hclock'⟩

/-! ## The theorem -/

theorem Beside.over (h : Beside peer place callers extra p σ t t') (hover : t'.Over) : t.Over := by
  intro slot hin
  obtain ⟨k, hk⟩ := List.mem_iff_getElem?.mp hin
  obtain ⟨slot', hslot', hsame⟩ := h.slots hk
  rw [hsame.hasEnded]
  exact hover _ (List.mem_of_getElem? hslot')

theorem Beside.done (h : Beside peer place callers extra p σ t t') (hover : t'.Over)
    (hdone : t'.step? = none) : t.step? = none := by
  refine step?_of_ended ?_ (h.over hover)
  rw [h.line, line_of_done hdone]
  rfl

end

/-- A caller ends the same way twice: with the same result, at the same time, and with the same
headers for its request. -/
structure EndsAlike (place : Nat) (ended ended' : Result × World) : Prop where
  result : ended.1 = ended'.1
  now : ended.2.now = ended'.2.now
  headers : (ended.2.grant place).headers = (ended'.2.grant place).headers

/-- Nobody can tell two timelines apart, one of which has one caller more at a position: the clocks
are the same, so are exchanges and journal and the headers for requests, and the others have ended
alike or not at all. -/
structure Alike {φ : Type} (place : Nat) (p : Ticket) (t t' : Timeline φ Result) : Prop where
  now : t.world.now = t'.world.now
  sent : t.world.sent = t'.world.sent
  journal : t.world.journal = t'.world.journal
  headers : (t.world.grant place).headers = (t'.world.grant place).headers
  ends : ∀ k, Option.Rel (EndsAlike place) (t.slots[k]?.bind Slot.result?)
    (t'.slots[shift p k]?.bind Slot.result?)

section

variable {peer : Peer} {place : Nat} {callers : List (Instant × Caller)} {g : Grant}
  {extra : Instant × Caller} {p f : Ticket} {σ : Nat → Nat} {ends own : Instant} {world : World}
  {t t' : Timeline (Phase (wire peer).Phase) Result} {ties : Ties}

theorem endsAlike_without (result : Result) (w : World) :
    EndsAlike place (result, w.without place p) (result, w) :=
  ⟨rfl, rfl, headers_without w place p⟩

theorem Beside.alike (h : Beside peer place callers extra p σ t t')
    (hnow : t.world.now = t'.world.now) : Alike place p t t' where
  now := hnow
  sent := by
    rw [h.world_eq hnow]
    rfl
  journal := by
    rw [h.world_eq hnow]
    rfl
  headers := by
    rw [h.world_eq hnow]
    exact headers_without t'.world place p
  ends := by
    intro k
    cases hslot : t.slots[k]? with
    | none =>
        rw [h.slot_none hslot]
        exact .none
    | some slot =>
        obtain ⟨slot', hslot', hsame⟩ := h.slots hslot
        rw [hslot']
        cases hsame with
        | idle => exact .none
        | timed => exact .none
        | waiting => exact .none
        | @ended result w => exact .some (endsAlike_without result w)

/-- Both runs have results, and those of the others are alike. -/
theorem GivesUpAt.alike (hrest : AtRest place g world) (hp : p ≤ callers.length)
    (hties : ties.Lawful) {n : Nat}
    (h : GivesUpAt (gathered peer place (callers.insertIdx p extra) world ties) p extra.2 n f ends
      own) :
    ∃ results results' after after',
      together (wire peer) place (numbered callers) world ties = some (results, after) ∧
      together (wire peer) place (numbered (callers.insertIdx p extra)) world ties =
        some (results', after') ∧
      (∀ k, k < callers.length → ∃ ended ended', results[k]? = some ended ∧
        results'[shift p k]? = some ended' ∧ EndsAlike place ended ended') ∧
      after.sent = after'.sent ∧ after.journal = after'.journal ∧
      after.grants = after'.grants := by
  obtain ⟨fuel, t, results, -, ht, hdone, -, -, hresults, -, htogether⟩ :=
    hrest.ends peer (@numbered_ticket callers) ties
  obtain ⟨fuel', t', results', g', ht', hdone', hover', hattentive', hresults', -, htogether'⟩ :=
    hrest.ends peer (@numbered_ticket (callers.insertIdx p extra)) ties
  obtain ⟨j, σ, hbeside, -⟩ := h.beside hrest hp hties fuel'
  -- Both are the end of the shorter run.
  have hend : (gathered peer place callers world ties).run j = t := by
    rw [ht'] at hbeside
    exact run_eq_of_done (hbeside.done hover' hdone') ht hdone
  rw [hend, ht'] at hbeside
  have hworld := hbeside.world
  refine ⟨results, results', _, _, htogether, htogether', ?_, ?_, ?_, ?_⟩
  · intro k hk
    obtain ⟨slot, hslot⟩ : ∃ slot, t.slots[k]? = some slot :=
      ⟨_, List.getElem?_eq_getElem (hbeside.length ▸ hk)⟩
    obtain ⟨slot', hslot', hsame⟩ := hbeside.slots hslot
    have hended := hover' _ (List.mem_of_getElem? hslot')
    cases hsame with
    | idle => cases hended
    | timed => cases hended
    | waiting => cases hended
    | @ended result w =>
        refine ⟨_, _, ?_, ?_, @endsAlike_without place p result w⟩
        · rw [results?_getElem? hresults, hslot]
          rfl
        · rw [results?_getElem? hresults', hslot']
          rfl
  · show t.world.sent = t'.world.sent
    rw [hworld]
    rfl
  · show t.world.journal = t'.world.journal
    rw [hworld]
    rfl
  · obtain ⟨hgrant, -, hunqueued, -⟩ := hattentive'.atRest hover'
    show t.world.grants = t'.world.grants
    rw [hworld]
    exact modify_without hgrant hunqueued

end

end Acquire

end BearerAuth
