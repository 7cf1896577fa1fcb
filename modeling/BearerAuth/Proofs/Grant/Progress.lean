import BearerAuth.Proofs.Grant.Ledger
import BearerAuth.Proofs.Timeline.Deadline
import Mathlib.Data.List.Perm.Subperm

/-!
# Every caller ends

A caller that waits for another's fetch starts over when that fetch was given up, and may
then have to wait again, for whoever fetches next.  Still every caller ends, in any order of
turns, and it makes one token request at most (`callers_end`).

Every turn and every cancellation lowers `toGo`: a fetch that ends may send all others
around once more, but it ends its caller too.  And nobody is forgotten (`Attended`): whoever
is not in line has set a timer, or is in the queue of a fetch that is under way.  A caller that
joined the queue without looking again at how many outcomes have been published would be.
-/

namespace BearerAuth

open Transport Timeline

/-- All jobs have ended. -/
def Timeline.Over {φ ρ : Type} (t : Timeline φ ρ) : Prop :=
  ∀ slot ∈ t.slots, slot.hasEnded = true

/-- Steps from a start on, and who has sent an exchange in them: one is added for every
step in which one was sent. -/
inductive Timeline.Senders {φ ρ : Type} (start : Timeline φ ρ) :
    List Ticket → Timeline φ ρ → Prop
  | refl : Senders start [] start
  | quiet {senders : List Ticket} {label : Option Ticket} {t t' : Timeline φ ρ} :
      Senders start senders t → Next label t t' → t'.world.sent = t.world.sent →
      Senders start senders t'
  | sends {senders : List Ticket} {i : Ticket} {t t' : Timeline φ ρ} {exchange : Exchange} :
      Senders start senders t → Next (some i) t t' →
      t'.world.sent = t.world.sent ++ [exchange] → Senders start (senders ++ [i]) t'

namespace Acquire

/-- A grant that nobody is at: no fetch is under way, nobody waits for one and nobody is
still to be released.  Its token and the end of its last fetch may be any. -/
structure AtRest (place : Nat) (g : Grant) (w : World) : Prop where
  grant : w.grants[place]? = some g
  idle : g.busy = false
  unqueued : g.queue = []
  unreleased : w.released = []

/-! ## What is still to go -/

section

variable {φ : Type} {g g' : Grant} {i : Ticket} {now : Instant} {before after : Role}
  {exchange? : Option Exchange} {reply? : Option Reply} {n published : Nat}

/-- What a caller owes that stands somewhere, in a crowd of `n`.  It owes two for a turn, as it
may come into line in it, one more when it joins the queue, and seven for each caller when its
fetch ends, as all others may be set back by as much. -/
def Role.owes (n published : Nat) : Role → Nat
  | .away => 7 * n + 10
  | .fetching => 7 * n + 5
  | .joining seen => if seen = published then 7 * n + 8 else 7 * n + 14
  | .awaiting seen => if seen = published then 7 * n + 5 else 7 * n + 12
  | .returning ending => if ending = .abandoned then 7 * n + 10 else 2

/-- What a caller owes after a turn: nothing when it has ended in it. -/
def Role.stillOwes (n published : Nat) (role : Role) : Nat :=
  if role = .away then 0 else role.owes n published

def owes (n published : Nat) : Slot (Phase φ) Result → Nat
  | .idle none => 7 * n + 11
  | .idle (some _) => 7 * n + 10
  | .waiting phase _ _ => (Role.of (some phase)).owes n published
  | .ended _ _ => 0

theorem TakesUp.owes_le {begins : Instant} {slot : Slot (Phase φ) Result}
    {before : Option (Phase φ)} (h : TakesUp begins now slot before) :
    (Role.of before).owes n published ≤ owes n published slot := by
  cases h with
  | @beginning since _ =>
      cases since with
      | none => exact Nat.le_succ _
      | some since => exact Nat.le_refl _
  | phase => exact Nat.le_refl _

theorem owes_after (turn : Nat) (stretch : Stretch (Phase φ) Result) :
    owes n published (Slot.after turn stretch) =
      (Role.of (pausedIn stretch.1)).stillOwes n published := by
  obtain ⟨progress, w⟩ := stretch
  cases progress with
  | done result => rfl
  | paused phase wait => cases phase <;> rfl

theorem Role.Asks.owes (h : before.Asks) : before.owes n published = 7 * n + 10 := by
  rcases h with rfl | rfl <;> rfl

theorem Role.two_le_owes (role : Role) : 2 ≤ role.owes n published := by
  cases role with
  | away => exact Nat.le_add_left _ _
  | fetching => exact Nat.le_add_left 2 (7 * n + 3)
  | joining seen =>
      simp only [Role.owes]
      split <;> omega
  | awaiting seen =>
      simp only [Role.owes]
      split <;> omega
  | returning ending =>
      simp only [Role.owes]
      split <;> omega

theorem owes_publication_le (slot : Slot (Phase φ) Result) :
    owes n (published + 1) slot ≤ owes n published slot + 7 := by
  have hrole (role : Role) : role.owes n (published + 1) ≤ role.owes n published + 7 := by
    cases role with
    | away => exact Nat.le_add_right _ _
    | fetching => exact Nat.le_add_right _ _
    | joining seen =>
        simp only [Role.owes]
        split <;> split <;> omega
    | awaiting seen =>
        simp only [Role.owes]
        split <;> split <;> omega
    | returning ending => exact Nat.le_add_right _ _
  cases slot with
  | idle since => cases since <;> exact Nat.le_add_right _ _
  | waiting phase wait since => exact hrole _
  | ended result world => exact Nat.zero_le _

theorem sum_owes_le (slots : List (Slot (Phase φ) Result)) (reply? : Option Reply) :
    (slots.map (owes n (published + reply?.toList.length))).sum ≤
      (slots.map (owes n published)).sum + 7 * slots.length * reply?.toList.length := by
  cases reply? with
  | none => exact Nat.le_refl _
  | some reply =>
      show (slots.map (owes n (published + 1))).sum ≤ _ + 7 * slots.length * 1
      induction slots with
      | nil => exact Nat.le_refl _
      | cons slot rest ih =>
          have hslot : owes n (published + 1) slot ≤ owes n published slot + 7 :=
            owes_publication_le slot
          simp only [List.map_cons, List.sum_cons, List.length_cons]
          omega

theorem sum_owes_idle (jobs : List (Job (Phase φ) Result)) :
    ((jobs.map fun _ => (Slot.idle none : Slot (Phase φ) Result)).map (owes n published)).sum =
      jobs.length * (7 * n + 11) := by
  rw [List.map_map]
  show (jobs.map fun _ => 7 * n + 11).sum = _
  rw [List.map_const', List.sum_replicate_nat]

theorem Deed.published_eq (h : Deed g i now before after exchange? reply? g') :
    g'.published = g.published + reply?.toList.length := by
  cases h with
  | exchanges reply => exact Grant.publish_published _ _ _
  | receives reply => exact Grant.publish_published _ _ _
  | rests => rfl
  | sees => rfl
  | asks => rfl
  | continues => rfl
  | joins => rfl
  | late => rfl
  | hears => rfl
  | leaves => rfl

/-- A deed lowers what its caller owes by more than it adds to line and queue, and by what it sets
others back. -/
theorem Deed.lowers (h : Deed g i now before after exchange? reply? g')
    (hsettled : before = .fetching → after ≠ .fetching) :
    after.stillOwes n g.published + g'.queue.length + (releasedBy g reply?).length +
      7 * n * reply?.toList.length + 2 ≤ before.owes n g.published + g.queue.length := by
  have hleft (role : Role) : role.stillOwes n g.published ≤ role.owes n g.published := by
    rw [Role.stillOwes]
    split
    · exact Nat.zero_le _
    · exact Nat.le_refl _
  have hafter := hleft after
  have hreleased : g.released.length = g.queue.length := List.length_map _
  cases h with
  | rests _ =>
      have hbefore : 2 ≤ before.owes n g.published := before.two_le_owes
      simp only [Role.stillOwes, if_true, releasedBy, Option.toList_none, List.length_nil]
      omega
  | sees hasks _ =>
      rw [hasks.owes]
      simp only [Role.owes, if_true, releasedBy, Option.toList_none, List.length_nil] at hafter ⊢
      omega
  | asks hasks _ =>
      rw [hasks.owes]
      simp only [Role.owes, releasedBy, Option.toList_none, List.length_nil, Grant.beginFetch]
        at hafter ⊢
      omega
  | exchanges reply hasks _ =>
      simp only [hasks.owes, Role.stillOwes, if_true, Grant.publish_queue, releasedBy, hreleased,
        Option.toList_some, List.length_singleton, List.length_nil]
      omega
  | continues hfetching => exact absurd rfl (hsettled hfetching)
  | receives reply hfetching =>
      simp only [hfetching, Role.owes, Role.stillOwes, if_true, Grant.publish_queue, releasedBy,
        hreleased, Option.toList_some, List.length_singleton, List.length_nil]
      omega
  | joins hjoining =>
      simp only [hjoining, Role.owes, if_true, releasedBy, Option.toList_none, List.length_nil,
        Grant.join, List.length_append, List.length_singleton] at hafter ⊢
      omega
  | late hjoining hne =>
      simp only [hjoining, Role.owes, if_neg (Ne.symm hne), releasedBy, Option.toList_none,
        List.length_nil] at hafter ⊢
      omega
  | hears hawaiting hne =>
      have hending : Role.owes n g.published (.returning (.ofGrant g)) ≤ 7 * n + 10 := by
        simp only [Role.owes]
        split <;> omega
      simp only [hawaiting, Role.owes, if_neg (Ne.symm hne), releasedBy, Option.toList_none,
        List.length_nil] at hafter hending ⊢
      omega
  | leaves hawaiting hending =>
      have hfilter := List.length_filter_le (fun queued : Queued => queued.ticket != i) g.queue
      simp only [hawaiting, Role.owes, if_true, if_neg hending, releasedBy, Option.toList_none,
        List.length_nil, Grant.leave] at hafter ⊢
      omega

end

/-- What is still to go on a timeline of `n` callers: what the callers owe, the cancellations
to come, and whoever is in line or in the queue. -/
def toGo {base : Transport} (n place : Nat) (t : Timeline (Phase base.Phase) Result) : Nat :=
  2 * t.world.agenda.length + (t.slots.map (owes n (t.world.grant place).published)).sum +
    t.line.length + (t.world.grant place).queue.length

/-! ## Nobody is forgotten -/

/-- How a caller comes to its next turn, when it has not ended: it is in line, or has set a
timer, or is in the queue. -/
inductive Attended {φ : Type} (g : Grant) (line : List Ticket) (k : Ticket) :
    Slot (Phase φ) Result → Prop
  | first : k ∈ line → Attended g line k (.idle none)
  | early {since : Nat} : Attended g line k (.idle (some since))
  | called {phase : Phase φ} {wait : Wait} {since : Nat} : k ∈ line →
      Attended g line k (.waiting phase wait since)
  | brief {phase : Phase φ} {instant : Instant} {since : Nat} :
      Attended g line k (.waiting phase { timer := some instant, brief := true } since)
  | exchange {phase : φ} {wait : Wait} {since : Nat} {instant : Instant} :
      wait.timer = some instant → Attended g line k (.waiting (.fetching phase) wait since)
  | queued {seen : Nat} {wait : Wait} {since : Nat} : ⟨k, seen⟩ ∈ g.queue →
      Attended g line k (.waiting (.awaiting seen) wait since)
  | ended {result : Result} {world : World} : Attended g line k (.ended result world)

/-- Everybody comes to a next turn, and stands as the grant says. -/
structure Attentive (base : Transport) (place : Nat) (callers : List (Instant × Caller)) (g : Grant)
    (t : Timeline (Phase base.Phase) Result) : Prop
    extends Peopled base place callers g t where
  length : t.slots.length = callers.length
  released : t.world.released = []
  attendance : Attendance (roleAt t) g
  attended : ∀ {k slot}, t.slots[k]? = some slot → Attended g t.line k slot

theorem Attended.mono {φ : Type} {g g' : Grant} {line line' : List Ticket} {k : Ticket}
    {slot : Slot (Phase φ) Result} (h : Attended g line k slot) (hline : k ∈ line → k ∈ line')
    (hqueue : ∀ seen, ⟨k, seen⟩ ∈ g.queue → k ∈ line' ∨ ⟨k, seen⟩ ∈ g'.queue) :
    Attended g' line' k slot := by
  cases h with
  | first hin => exact .first (hline hin)
  | early => exact .early
  | called hin => exact .called (hline hin)
  | brief => exact .brief
  | exchange htimer => exact .exchange htimer
  | queued hqueued =>
      rcases hqueue _ hqueued with hin | hqueued'
      · exact .called hin
      · exact .queued hqueued'
  | ended => exact .ended

theorem Deed.queued {g g' : Grant} {i k : Ticket} {now : Instant} {before after : Role}
    {exchange? : Option Exchange} {reply? : Option Reply}
    (h : Deed g i now before after exchange? reply? g') (hne : k ≠ i) {seen : Nat}
    (hqueued : ⟨k, seen⟩ ∈ g.queue) :
    k ∈ releasedBy g reply? ∨ ⟨k, seen⟩ ∈ g'.queue := by
  cases h with
  | exchanges => exact .inl (List.mem_map.mpr ⟨_, hqueued, rfl⟩)
  | receives => exact .inl (List.mem_map.mpr ⟨_, hqueued, rfl⟩)
  | joins => exact .inr (List.mem_append_left _ hqueued)
  | leaves => exact .inr (List.mem_filter.mpr ⟨hqueued, bne_iff_ne.mpr hne⟩)
  | rests => exact .inr hqueued
  | sees => exact .inr hqueued
  | asks => exact .inr hqueued
  | continues => exact .inr hqueued
  | late => exact .inr hqueued
  | hears => exact .inr hqueued

section

variable {peer : Peer} {place : Nat} {callers : List (Instant × Caller)} {g g' : Grant}
  {t t' : Timeline (Phase (wire peer).Phase) Result} {i k : Ticket}
  {slot slot' : Slot (Phase (wire peer).Phase) Result} {caller : Caller} {w : World}
  {before : Option (Phase (wire peer).Phase)} {exchange? : Option Exchange}
  {reply? : Option Reply} {stretch : Stretch (Phase (wire peer).Phase) Result}

/-- Whoever takes a turn ends in it, or comes to a next one. -/
theorem Turn.attended (h : Turn (wire peer) place caller w g before exchange? reply? stretch)
    (hg : w.grants[place]? = some g) (hg' : stretch.2.grants[place]? = some g') (turn : Nat)
    (line : List Ticket) : Attended g' line caller.ticket (.after turn stretch) := by
  cases h with
  | serves => exact .ended
  | sees => exact .brief
  | asks _ hstart =>
      obtain ⟨instant, htimer⟩ := (wire_waits hstart).timer
      exact .exchange htimer
  | exchanges => exact .ended
  | continues hresume => cases hresume
  | receives => exact .ended
  | joins =>
      obtain rfl := Option.some.inj ((getElem?_setGrant hg).symm.trans hg')
      exact .queued (List.mem_append_right _ List.mem_cons_self)
  | late => exact .brief
  | hears => exact .brief
  | leaves => exact .brief
  | ends => exact .ended

theorem Turn.settled (h : Turn (wire peer) place caller w g before exchange? reply? stretch)
    (hfetching : Role.of before = .fetching) : ∃ result, stretch.1 = .done result := by
  have hasks (hwants : Wants before) : ¬ Role.of before = .fetching :=
    (hwants.asks.loose (g := g)).fetching
  cases h with
  | serves hwants _ => exact absurd hfetching (hasks hwants)
  | sees hwants _ => exact absurd hfetching (hasks hwants)
  | asks hfetches _ => exact absurd hfetching (hasks hfetches.wants)
  | exchanges hfetches _ => exact absurd hfetching (hasks hfetches.wants)
  | continues hresume => cases hresume
  | receives => exact ⟨_, rfl⟩
  | joins => cases hfetching
  | late => cases hfetching
  | hears => cases hfetching
  | leaves => cases hfetching
  | ends => cases hfetching

theorem Attentive.deed (h : Attentive (wire peer) place callers g t)
    (htickets : Ticketed callers) {entry : Instant × Caller} (hentry : callers[i]? = some entry)
    (hslot : t.slots[i]? = some slot) (htakes : TakesUp entry.1 t.world.now slot before)
    (hturn : Turn (wire peer) place entry.2 t.world g before exchange? reply? stretch) :
    ∃ g', Deed g i t.world.now (roleAt t i) (.of (pausedIn stretch.1)) exchange? reply? g' ∧
      Records place t.world g' (releasedBy g reply?) stretch.2 := by
  obtain ⟨g', hdeed, hrecords⟩ := hturn.deed (wire_keepsApart peer) h.grant
  rw [htickets i entry hentry, ← htakes.phaseOf_eq, ← roleAt_of_slot hslot] at hdeed
  exact ⟨g', hdeed, hrecords⟩

theorem mem_line_turned_of_ne {job : Job (Phase (wire peer).Phase) Result} {w' : World}
    (hne : k ≠ i) (hk : k ∈ t.line) : k ∈ (t.turned i job slot' w').line :=
  mem_join.mpr (.inl ((List.mem_erase_of_ne hne).mpr hk))

theorem Attentive.leave (h : Attentive (wire peer) place callers g t)
    {job : Job (Phase (wire peer).Phase) Result} (hslot : t.slots[i]? = some slot)
    (hphase : phaseOf slot' = phaseOf slot) (hattended : ∀ line, Attended g line i slot') :
    Attentive (wire peer) place callers g (t.turned i job slot' t.world) where
  toPeopled := h.toPeopled.idles (idles_turned hslot hphase)
  length := (List.length_set ..).trans h.length
  released := rfl
  attendance := by
    have hidles : Idles t (t.turned i job slot' t.world) := idles_turned hslot hphase
    exact hidles.roleAt_eq ▸ h.attendance
  attended := by
    intro k slot₁ hk
    rcases getElem?_set_cases hk with ⟨rfl, rfl⟩ | ⟨hne, hk⟩
    · exact hattended _
    · exact (h.attended hk).mono (mem_line_turned_of_ne hne) fun seen => .inr

/-- **No turn forgets anybody.** -/
theorem Attentive.turned (h : Attentive (wire peer) place callers g t) (htickets : Ticketed callers)
    {entry : Instant × Caller} (hentry : callers[i]? = some entry) (hslot : t.slots[i]? = some slot)
    (hturn : Turn (wire peer) place entry.2 t.world g before exchange? reply? stretch)
    (hdeed : Deed g i t.world.now (roleAt t i) (.of (pausedIn stretch.1)) exchange? reply? g')
    (hrecords : Records place t.world g' (releasedBy g reply?) stretch.2) :
    Attentive (wire peer) place callers g' (t.turned i (job (wire peer) place entry.1 entry.2)
      (.after t.turn stretch) stretch.2) where
  toPeopled := h.toPeopled.turned hrecords.grant
  length := (List.length_set ..).trans h.length
  released := rfl
  attendance := by
    rw [roleAt_turned hslot, phaseOf_after]
    exact h.attendance.deed hdeed
  attended := by
    intro k slot₁ hk
    rcases getElem?_set_cases hk with ⟨rfl, rfl⟩ | ⟨hne, hk⟩
    · have hself := hturn.attended h.grant hrecords.grant t.turn
      rw [htickets k entry hentry] at hself
      exact hself _
    · refine (h.attended hk).mono (mem_line_turned_of_ne hne) ?_
      intro seen hqueued
      refine (hdeed.queued hne hqueued).imp ?_ id
      intro hreleased
      refine mem_join.mpr (.inr (List.mem_append_left _ ?_))
      rw [hrecords.released]
      exact List.mem_append_right _ hreleased

theorem Attentive.passTo (h : Attentive (wire peer) place callers g t) (instant : Instant) :
    Attentive (wire peer) place callers g (t.passTo instant) :=
  { h with }

theorem Attentive.cancel (h : Attentive (wire peer) place callers g t) (c : Cancellation) :
    Attentive (wire peer) place callers g (t.cancel c) := by
  refine { h with attended := ?_ }
  intro k slot hk
  refine (h.attended hk).mono ?_ fun seen => .inr
  intro hin
  show k ∈ if _ then join t.line [c.ticket] else t.line
  split
  · exact mem_join.mpr (.inl hin)
  · exact hin

/-! ## Steps -/

theorem length_line_turned {job : Job (Phase (wire peer).Phase) Result} {w' : World} :
    (t.turned i job slot' w').line.length ≤ t.line.length + w'.released.length + 1 := by
  have hjoin := length_join_le (t.line.erase i) (summoned i job slot' w')
  have herase := List.length_erase_le (a := i) (l := t.line)
  have hsummoned : (summoned i job slot' w').length ≤ w'.released.length + 1 := by
    rw [summoned, List.length_append]
    split
    · exact Nat.le_refl _
    · exact Nat.le_succ _
  show (join (t.line.erase i) (summoned i job slot' w')).length ≤ _
  omega

/-- A deed brings the end nearer. -/
theorem Attentive.toGo_turned (h : Attentive (wire peer) place callers g t)
    {job : Job (Phase (wire peer).Phase) Result} {begins : Instant}
    (hslot : t.slots[i]? = some slot) (htakes : TakesUp begins t.world.now slot before)
    (hturn : Turn (wire peer) place caller t.world g before exchange? reply? stretch)
    (hdeed : Deed g i t.world.now (roleAt t i) (.of (pausedIn stretch.1)) exchange? reply? g')
    (hrecords : Records place t.world g' (releasedBy g reply?) stretch.2) :
    toGo callers.length place (t.turned i job (.after t.turn stretch) stretch.2) <
      toGo callers.length place t := by
  have hrole : roleAt t i = .of before := by rw [roleAt_of_slot hslot, htakes.phaseOf_eq]
  rw [hrole] at hdeed
  have hlowers := hdeed.lowers (n := callers.length) fun hfetching => by
    obtain ⟨result, hdone⟩ := hturn.settled hfetching
    rw [hdone]
    exact nofun
  have hbefore : (Role.of before).owes callers.length g.published ≤
      owes callers.length g.published slot := htakes.owes_le
  have hset := @sum_map_set _ t.slots i slot (.after t.turn stretch)
    (owes callers.length g.published) hslot
  have hsum := @sum_owes_le _ callers.length g.published
    (t.slots.set i (.after t.turn stretch)) reply?
  rw [owes_after] at hset
  rw [List.length_set, h.length, ← hdeed.published_eq] at hsum
  have hline := @length_line_turned _ t i (.after t.turn stretch) job stretch.2
  rw [hrecords.released, h.released, List.nil_append] at hline
  have hgrant : World.grant { stretch.2 with released := [] } place = g' := grant_eq hrecords.grant
  show 2 * stretch.2.agenda.length + ((t.slots.set i (.after t.turn stretch)).map (owes
      callers.length (World.grant { stretch.2 with released := [] } place).published)).sum +
      (t.turned i job (.after t.turn stretch) stretch.2).line.length +
      (World.grant { stretch.2 with released := [] } place).queue.length <
    2 * t.world.agenda.length + (t.slots.map (owes callers.length
      (t.world.grant place).published)).sum + t.line.length + (t.world.grant place).queue.length
  rw [hgrant, grant_eq h.grant, hrecords.agenda]
  omega

theorem toGo_leave {job : Job (Phase (wire peer).Phase) Result} {n : Nat}
    (hreleased : t.world.released = []) (hslot : t.slots[i]? = some slot)
    (hheedless : slot'.heedsCancellation = false)
    (h : ∀ published, owes n published slot' < owes n published slot ∨
      owes n published slot' = owes n published slot ∧ i ∈ t.line) :
    toGo n place (t.turned i job slot' t.world) < toGo n place t := by
  have hsum := @sum_map_set _ t.slots i slot slot' (owes n (t.world.grant place).published) hslot
  have hline : (t.turned i job slot' t.world).line = t.line.erase i := by
    show join (t.line.erase i) (summoned i job slot' t.world) = _
    rw [summoned, hreleased, hheedless]
    rfl
  show 2 * t.world.agenda.length +
      ((t.slots.set i slot').map (owes n (t.world.grant place).published)).sum +
      (t.turned i job slot' t.world).line.length + (t.world.grant place).queue.length <
    toGo n place t
  rw [hline, toGo]
  rcases h (t.world.grant place).published with hlt | ⟨heq, hin⟩
  · have herase := List.length_erase_le (a := i) (l := t.line)
    omega
  · have herase := List.length_erase_of_mem hin
    have hpos := List.length_pos_of_mem hin
    omega

/-- **Every turn forgets nobody, and brings the end nearer.** -/
theorem Attentive.taken (h : Attentive (wire peer) place callers g t) (htickets : Ticketed callers)
    (htaken : Taken (wire peer) place callers t i t') :
    (∃ g', Attentive (wire peer) place callers g' t') ∧
      toGo callers.length place t' < toGo callers.length place t := by
  cases htaken with
  | nobody hnone hline =>
      refine ⟨⟨g, { h with attended := ?_ }⟩, ?_⟩
      · intro k slot hk
        have hne : k ≠ i := by
          rintro rfl
          have hlt := h.length ▸ (List.getElem?_eq_some_iff.mp hk).1
          rcases hnone with hcaller | hslot
          · exact absurd hlt (Nat.not_lt.mpr (List.getElem?_eq_none_iff.mp hcaller))
          · rw [show t.slots[k]? = some slot from hk] at hslot
            cases hslot
        exact (h.attended hk).mono (List.mem_erase_of_ne hne).mpr fun seen => .inr
      · have herase := List.length_erase_of_mem hline
        have hpos := List.length_pos_of_mem hline
        simp only [toGo, leaveLine]
        omega
  | @early entry since _ hslot _ hcalled =>
      refine ⟨⟨g, h.leave hslot rfl fun _ => .early⟩, toGo_leave h.released hslot rfl ?_⟩
      intro published
      cases since with
      | none => exact .inl (Nat.lt_succ_self _)
      | some since => exact .inr ⟨rfl, hcalled.resolve_left (Option.some_ne_none since)⟩
  | spent _ hslot hline =>
      exact ⟨⟨g, h.leave hslot rfl fun _ => .ended⟩,
        toGo_leave h.released hslot rfl fun _ => .inr ⟨rfl, hline⟩⟩
  | @works entry slot before hentry hslot htakes _ =>
      obtain ⟨exchange?, reply?, hturn⟩ := turnFrom_turn entry.2 h.grant before
      obtain ⟨g', hdeed, hrecords⟩ := h.deed htickets hentry hslot htakes hturn
      exact ⟨⟨g', h.turned htickets hentry hslot hturn hdeed hrecords⟩,
        h.toGo_turned hslot htakes hturn hdeed hrecords⟩

theorem cancel_toGo_lt {n : Nat} {c : Cancellation} (hc : c ∈ t.world.agenda) :
    toGo n place (t.cancel c) < toGo n place t := by
  have herase := List.length_erase_of_mem hc
  have hpos := List.length_pos_of_mem hc
  have hline : (t.cancel c).line.length ≤ t.line.length + 1 := by
    simp only [cancel]
    split
    · exact length_join_le _ _
    · exact Nat.le_succ _
  show 2 * (t.world.agenda.erase c).length +
      (t.slots.map (owes n (t.world.grant place).published)).sum + (t.cancel c).line.length +
      (t.world.grant place).queue.length < toGo n place t
  rw [toGo]
  omega

theorem Attentive.next (h : Attentive (wire peer) place callers g t) (htickets : Ticketed callers)
    {label : Option Ticket} (hnext : Next label t t') :
    ∃ g', Attentive (wire peer) place callers g' t' := by
  cases label with
  | some i => exact (h.taken htickets (h.toPeopled.taken hnext)).1
  | none =>
      cases hnext with
      | passage _ instant => exact ⟨g, h.passTo instant⟩
      | cancellation _ _ => exact ⟨g, h.cancel _⟩

theorem Attentive.reaches (h : Attentive (wire peer) place callers g t)
    (htickets : Ticketed callers) (hreaches : Reaches t t') :
    ∃ g', Attentive (wire peer) place callers g' t' :=
  hreaches.invariant (I := fun t => ∃ g, Attentive (wire peer) place callers g t) ⟨g, h⟩
    fun ⟨_, hattentive⟩ hnext => hattentive.next htickets hnext

theorem AtRest.attentive {world : World} {ties : Ties} (h : AtRest place g world) :
    Attentive (wire peer) place callers g
      (ofJobs world (crowd (wire peer) place callers) ties) where
  jobs := rfl
  length := by simp [ofJobs, crowd]
  released := h.unreleased
  grant := h.grant
  attendance := roleAt_ofJobs ▸ .nobody h.idle h.unqueued
  attended := by
    intro k slot hslot
    obtain ⟨rfl, hlt⟩ := ofJobs_slots_iff.mp hslot
    exact .first (List.mem_range.mpr hlt)

/-- While no timer is set and nobody is in line, whoever has not ended is in the queue. -/
theorem Attentive.ended_or_queued (h : Attentive (wire peer) place callers g t)
    (hline : t.line = []) (halarms : alarmsFrom 0 t.jobs t.slots = [])
    {slot : Slot (Phase (wire peer).Phase) Result} (hslot : t.slots[k]? = some slot) :
    slot.hasEnded = true ∨ ∃ seen, roleAt t k = .awaiting seen ∧ ⟨k, seen⟩ ∈ g.queue := by
  have hlt : k < t.jobs.length := by
    rw [h.jobs, crowd, List.length_map, ← h.length]
    exact (List.getElem?_eq_some_iff.mp hslot).1
  have huntimed : alarm? k t.jobs[k] slot = none := by
    cases halarm : alarm? k t.jobs[k] slot with
    | none => rfl
    | some a =>
        have ha : a ∈ alarmsFrom 0 t.jobs t.slots := mem_alarmsFrom.mpr
          ⟨k, _, slot, List.getElem?_eq_getElem hlt, hslot, by rwa [Nat.zero_add]⟩
        rw [halarms] at ha
        cases ha
  have hattended := h.attended hslot
  rw [hline] at hattended
  cases hattended with
  | first hin => cases hin
  | early => cases huntimed
  | called hin => cases hin
  | brief => cases huntimed
  | exchange htimer =>
      rw [alarm?, htimer] at huntimed
      cases huntimed
  | @queued seen _ _ hqueued => exact .inr ⟨seen, roleAt_of_slot hslot, hqueued⟩
  | ended => exact .inl rfl

theorem Attentive.isOver (h : Attentive (wire peer) place callers g t) (hline : t.line = [])
    (halarms : alarmsFrom 0 t.jobs t.slots = []) : t.Over := by
  intro slot hin
  obtain ⟨k, hslot⟩ := List.mem_iff_getElem?.mp hin
  rcases h.ended_or_queued hline halarms hslot with hended | ⟨seen, -, hqueued⟩
  · exact hended
  · -- Somebody fetches while anybody is in the queue, and that one has set a timer.
    obtain ⟨j, hj⟩ := h.attendance.busy.mp (h.attendance.queue _ hqueued).1
    obtain ⟨phase, wait, since, hfetches⟩ := slot_of_fetching hj
    rcases h.ended_or_queued hline halarms hfetches with hended | ⟨seen', hawaiting, -⟩
    · cases hended
    · rw [hj] at hawaiting
      cases hawaiting

theorem Attentive.step (h : Attentive (wire peer) place callers g t) (hnot : ¬ t.Over) :
    ∃ t', t.step? = some t' := by
  cases hbrief : t.brief? with
  | some a => exact ⟨_, step?_brief hbrief⟩
  | none =>
      cases hline : t.line with
      | cons k rest => exact ⟨_, step?_head hbrief hline⟩
      | nil =>
          cases halarms : alarmsFrom 0 t.jobs t.slots with
          | nil => exact absurd (h.isOver hline halarms) hnot
          | cons a rest =>
              have ha : a ∈ alarmsFrom 0 t.jobs t.slots := halarms ▸ List.mem_cons_self
              obtain ⟨event, hevent⟩ := exists_event ha
              refine ⟨t.happen event, ?_⟩
              rw [step?_event hbrief hline, hevent]
              rfl

/-- Every move brings the end nearer. -/
theorem Attentive.move (h : Attentive (wire peer) place callers g t) (htickets : Ticketed callers)
    (hmove : Move t t') :
    (∃ g', Attentive (wire peer) place callers g' t') ∧
      toGo callers.length place t' < toGo callers.length place t := by
  cases hmove with
  | @turn instant i _ _ hnext =>
      have hpassed := h.passTo instant
      exact hpassed.taken htickets (hpassed.toPeopled.taken hnext)
  | @cancellation instant c _ hc _ =>
      exact ⟨⟨g, (h.passTo instant).cancel c⟩, cancel_toGo_lt (t := t.passTo instant) hc⟩

theorem AtRest.toGo_le {world : World} {ties : Ties} (h : AtRest place g world) :
    toGo callers.length place (ofJobs world (crowd (wire peer) place callers) ties) ≤
      patience * ((callers.length + 1) * (callers.length + 1)) := by
  have hcrowd : (crowd (wire peer) place callers).length = callers.length := List.length_map ..
  have hagenda : ((crowd (wire peer) place callers).filterMap fun job =>
      job.caller.cancellation? world.now).length ≤ callers.length :=
    hcrowd ▸ List.length_filterMap_le ..
  show 2 * ((crowd (wire peer) place callers).filterMap fun job =>
      job.caller.cancellation? world.now).length +
    (((crowd (wire peer) place callers).map fun _ => Slot.idle none).map
      (owes callers.length (world.grant place).published)).sum +
    (List.range (crowd (wire peer) place callers).length).length +
    (world.grant place).queue.length ≤ _
  rw [sum_owes_idle, List.length_range, hcrowd, grant_eq h.grant, h.unqueued, List.length_nil]
  generalize callers.length = n at hagenda
  have hbound : 2 * n + n * (7 * n + 11) + n ≤ 16 * ((n + 1) * (n + 1)) := by
    simp only [Nat.add_mul, Nat.mul_add, Nat.mul_left_comm n 7]
    omega
  have hpatience : 16 * ((n + 1) * (n + 1)) ≤ patience * ((n + 1) * (n + 1)) :=
    Nat.mul_le_mul_right _ (by decide)
  omega

/-! ## Token requests -/

theorem hasEnded_after {result : Result} (h : stretch.1 = .done result) (turn : Nat) :
    (Slot.after turn stretch).hasEnded = true := by
  obtain ⟨progress, w⟩ := stretch
  obtain rfl : progress = .done result := h
  rfl

/-- A caller has made its token request, or will make none any more. -/
def HasAsked (t : Timeline (Phase (wire peer).Phase) Result) (i : Ticket) : Prop :=
  ∃ slot, t.slots[i]? = some slot ∧ (slot.hasEnded = true ∨ roleAt t i = .fetching)

theorem HasAsked.taken (h : HasAsked t k) (hpeopled : Peopled (wire peer) place callers g t)
    (htaken : Taken (wire peer) place callers t i t') : HasAsked t' k := by
  have hother {job : Job (Phase (wire peer).Phase) Result}
      {slot' : Slot (Phase (wire peer).Phase) Result} {w' : World} (hne : k ≠ i) :
      HasAsked (t.turned i job slot' w') k := by
    rw [HasAsked, roleAt, turned_slot_ne hne]
    exact h
  by_cases hne : k = i
  · subst hne
    obtain ⟨slot, hslot, hwhy⟩ := h
    cases htaken with
    | nobody => exact ⟨slot, hslot, hwhy⟩
    | early _ hslot' _ _ =>
        obtain rfl := Option.some.inj (hslot.symm.trans hslot')
        rw [roleAt_of_slot hslot] at hwhy
        rcases hwhy with hended | hfetching
        · cases hended
        · cases hfetching
    | spent _ hslot' _ => exact ⟨_, turned_slot hslot', .inl rfl⟩
    | @works entry slot' before _ hslot' htakes _ =>
        obtain rfl := Option.some.inj (hslot.symm.trans hslot')
        rw [htakes.running, roleAt_of_slot hslot, htakes.phaseOf_eq] at hwhy
        have hfetching := hwhy.resolve_left Bool.false_ne_true
        obtain ⟨exchange?, reply?, hturn⟩ := turnFrom_turn entry.2 hpeopled.grant before
        obtain ⟨result, hdone⟩ := hturn.settled hfetching
        exact ⟨_, turned_slot hslot, .inl (hasEnded_after hdone t.turn)⟩
  · cases htaken with
    | nobody => exact h
    | early => exact hother hne
    | spent => exact hother hne
    | works => exact hother hne

theorem Deed.begun_eq {now : Instant} {role after : Role}
    (h : Deed g i now role after exchange? reply? g') :
    g'.begun = g.begun + exchange?.toList.length := by
  cases h with
  | exchanges reply => exact Grant.publish_begun _ _ _
  | receives reply => exact Grant.publish_begun _ _ _
  | rests => rfl
  | sees => rfl
  | asks => rfl
  | continues => rfl
  | joins => rfl
  | late => rfl
  | hears => rfl
  | leaves => rfl

theorem Turn.asked {exchange : Exchange}
    (h : Turn (wire peer) place caller w g before (some exchange) reply? stretch) :
    Role.of before ≠ .fetching ∧
      ((∃ result, stretch.1 = .done result) ∨ Role.of (pausedIn stretch.1) = .fetching) := by
  cases h with
  | asks hfetches _ => exact ⟨(hfetches.wants.asks.loose (g := g)).fetching, .inr rfl⟩
  | exchanges hfetches _ => exact ⟨(hfetches.wants.asks.loose (g := g)).fetching, .inl ⟨_, rfl⟩⟩

/-- A turn sends no token request and begins no fetch, or one of each; then the caller had
not asked before, and has now. -/
theorem Attentive.sent (h : Attentive (wire peer) place callers g t) (htickets : Ticketed callers)
    (htaken : Taken (wire peer) place callers t i t') :
    t'.world.sent = t.world.sent ∧ (t'.world.grant place).begun = g.begun ∨
      (∃ exchange, t'.world.sent = t.world.sent ++ [exchange]) ∧
        (t'.world.grant place).begun = g.begun + 1 ∧ ¬ HasAsked t i ∧ HasAsked t' i := by
  have hbegun : (t.world.grant place).begun = g.begun := by rw [grant_eq h.grant]
  cases htaken with
  | nobody => exact .inl ⟨rfl, hbegun⟩
  | early => exact .inl ⟨rfl, hbegun⟩
  | spent => exact .inl ⟨rfl, hbegun⟩
  | @works entry slot before hentry hslot htakes _ =>
      obtain ⟨exchange?, reply?, hturn⟩ := turnFrom_turn entry.2 h.grant before
      obtain ⟨g', hdeed, hrecords⟩ := h.deed htickets hentry hslot htakes hturn
      have hsent := hturn.sent (wire_sendsOnce peer)
      have hgrant : (t.turned i (job (wire peer) place entry.1 entry.2) (.after t.turn
          (turnFrom (wire peer) place entry.2 before t.world)) (turnFrom (wire peer) place entry.2
            before t.world).2).world.grant place = g' := grant_eq hrecords.grant
      rw [hgrant, hdeed.begun_eq]
      cases exchange? with
      | none => exact .inl ⟨hsent.trans (List.append_nil _), rfl⟩
      | some exchange =>
          obtain ⟨hbefore, hafter⟩ := hturn.asked
          refine .inr ⟨⟨exchange, hsent⟩, rfl, ?_, _, turned_slot hslot, ?_⟩
          · rintro ⟨slot', hslot', hwhy⟩
            obtain rfl := Option.some.inj (hslot.symm.trans hslot')
            rw [htakes.running, roleAt_of_slot hslot, htakes.phaseOf_eq] at hwhy
            exact hbefore (hwhy.resolve_left nofun)
          · rw [roleAt_of_slot (turned_slot hslot), phaseOf_after]
            exact hafter.imp_left fun ⟨result, hdone⟩ => hasEnded_after hdone t.turn

/-- What is so of the callers that have sent a token request. -/
structure Asked (place : Nat) (begun : Nat) (senders : List Ticket)
    (t : Timeline (Phase (wire peer).Phase) Result) : Prop where
  nodup : senders.Nodup
  hasAsked : ∀ i ∈ senders, HasAsked t i
  begun : (t.world.grant place).begun = begun + senders.length

/-- Whatever is reached, somebody has sent each token request. -/
theorem senders_of_reaches {start : Timeline (Phase (wire peer).Phase) Result}
    (hfirst : Attentive (wire peer) place callers g start) (htickets : Ticketed callers)
    (hreaches : Reaches start t) : ∃ senders, Senders start senders t := by
  induction hreaches with
  | refl => exact ⟨[], .refl⟩
  | @tail t₁ t₂ hreaches hnext ih =>
      obtain ⟨senders, hsenders⟩ := ih
      obtain ⟨label, hnext⟩ := hnext
      obtain ⟨g₁, hattentive⟩ := hfirst.reaches htickets hreaches
      cases label with
      | none =>
          refine ⟨senders, .quiet hsenders hnext ?_⟩
          cases hnext with
          | passage => rfl
          | cancellation => rfl
      | some i =>
          rcases hattentive.sent htickets (hattentive.toPeopled.taken hnext) with
            ⟨hsent, -⟩ | ⟨⟨exchange, hsent⟩, -, -, -⟩
          · exact ⟨senders, .quiet hsenders hnext hsent⟩
          · exact ⟨senders ++ [i], .sends hsenders hnext hsent⟩

theorem HasAsked.next (h : HasAsked t k) (hpeopled : Peopled (wire peer) place callers g t)
    {label : Option Ticket} (hnext : Next label t t') : HasAsked t' k := by
  cases label with
  | some i => exact h.taken hpeopled (hpeopled.taken hnext)
  | none =>
      cases hnext with
      | passage => exact h
      | cancellation => exact h

theorem asked_of_senders {start : Timeline (Phase (wire peer).Phase) Result}
    (hfirst : Attentive (wire peer) place callers g start) (htickets : Ticketed callers)
    {senders : List Ticket} (h : Senders start senders t) :
    (∃ g', Attentive (wire peer) place callers g' t) ∧ Asked place g.begun senders t := by
  have hsame {t : Timeline (Phase (wire peer).Phase) Result} {exchange : Exchange} :
      t.world.sent ≠ t.world.sent ++ [exchange] := by simp
  induction h with
  | refl => exact ⟨⟨g, hfirst⟩, .nil, nofun, by rw [grant_eq hfirst.grant]; rfl⟩
  | @quiet senders label t t' _ hnext hquiet ih =>
      obtain ⟨⟨g₁, hattentive⟩, hasked⟩ := ih
      refine ⟨hattentive.next htickets hnext, hasked.nodup,
        fun k hk => (hasked.hasAsked k hk).next hattentive.toPeopled hnext, ?_⟩
      rw [← hasked.begun, grant_eq hattentive.grant]
      cases label with
      | none =>
          rw [← grant_eq hattentive.grant]
          cases hnext with
          | passage => rfl
          | cancellation => rfl
      | some i =>
          rcases hattentive.sent htickets (hattentive.toPeopled.taken hnext) with
            ⟨-, hbegun⟩ | ⟨⟨exchange, hsent⟩, -, -, -⟩
          · exact hbegun
          · exact absurd (hquiet.symm.trans hsent) hsame
  | @sends senders i t t' exchange _ hnext hsends ih =>
      obtain ⟨⟨g₁, hattentive⟩, hasked⟩ := ih
      rcases hattentive.sent htickets (hattentive.toPeopled.taken hnext) with
        ⟨hsent, -⟩ | ⟨-, hbegun, hnot, hnow⟩
      · exact absurd (hsent.symm.trans hsends) hsame
      · refine ⟨hattentive.next htickets hnext, ?_, ?_, ?_⟩
        · refine List.nodup_append.mpr ⟨hasked.nodup, by simp, ?_⟩
          rintro a ha b hb rfl
          obtain rfl := List.mem_singleton.mp hb
          exact hnot (hasked.hasAsked a ha)
        · intro k hk
          rcases List.mem_append.mp hk with hold | hnew
          · exact (hasked.hasAsked k hold).next hattentive.toPeopled hnext
          · obtain rfl := List.mem_singleton.mp hnew
            exact hnow
        · rw [hbegun, ← grant_eq hattentive.grant, hasked.begun, List.length_append]
          rfl

/-! ## The theorem -/

theorem Attentive.lt_of_hasAsked (h : Attentive (wire peer) place callers g t)
    (hasked : HasAsked t i) : i < callers.length := by
  obtain ⟨slot, hslot, -⟩ := hasked
  exact h.length ▸ (List.getElem?_eq_some_iff.mp hslot).1

theorem length_le_of_nodup {senders : List Ticket} {n : Nat} (hnodup : senders.Nodup)
    (hlt : ∀ i ∈ senders, i < n) : senders.length ≤ n := by
  have hsub : senders.Subperm (List.range n) :=
    List.subperm_of_subset hnodup fun i hi => List.mem_range.mpr (hlt i hi)
  have hle := hsub.length_le
  rwa [List.length_range] at hle

/-- It is inevitable that all callers end. -/
theorem Attentive.inevitable (h : Attentive (wire peer) place callers g t)
    (htickets : Ticketed callers) : Inevitable Over t := by
  by_cases hover : t.Over
  · exact .now hover
  refine inevitable_of_measure Nat.lt_wfRel.wf
    (I := fun t => (∃ g, Attentive (wire peer) place callers g t) ∧ ¬ t.Over)
    (toGo callers.length place) ?_ ?_ ⟨⟨g, h⟩, hover⟩
  · rintro t ⟨⟨g, hattentive⟩, hnot⟩
    exact hattentive.step hnot
  · rintro t t' ⟨⟨g, hattentive⟩, -⟩ hmove
    obtain ⟨hattentive', hlt⟩ := hattentive.move htickets hmove
    by_cases hover' : t'.Over
    · exact .inl hover'
    · exact .inr ⟨⟨hattentive', hover'⟩, hlt⟩

/-- A run with enough fuel comes to the end of all callers, and to its own. -/
theorem Attentive.run (h : Attentive (wire peer) place callers g t) (htickets : Ticketed callers)
    {fuel : Nat} (hfuel : toGo callers.length place t ≤ fuel) :
    (t.run fuel).step? = none ∧ (t.run fuel).Over ∧
      ∃ g', Attentive (wire peer) place callers g' (t.run fuel) := by
  refine run_of_measure (I := fun t => ∃ g, Attentive (wire peer) place callers g t)
    (Q := fun t => t.step? = none ∧ t.Over ∧ ∃ g, Attentive (wire peer) place callers g t) ?_ fuel
    ⟨g, h⟩ hfuel
  rintro t ⟨g, hattentive⟩
  cases hstep : t.step? with
  | some t' =>
      obtain ⟨hattentive', hlt⟩ := hattentive.move htickets (step?_move hstep)
      exact .inr ⟨t', rfl, hattentive', hlt⟩
  | none =>
      refine .inl ⟨rfl, rfl, ?_, g, hattentive⟩
      by_cases hover : t.Over
      · exact hover
      · obtain ⟨t', hsome⟩ := hattentive.step hover
        rw [hstep] at hsome
        cases hsome

theorem Attentive.atRest (h : Attentive (wire peer) place callers g t) (hover : t.Over) :
    AtRest place g t.world := by
  have haway (i : Ticket) : roleAt t i = .away := by
    cases hslot : t.slots[i]? with
    | none =>
        rw [roleAt, hslot]
        rfl
    | some slot =>
        rw [roleAt_of_slot hslot]
        have hended := hover slot (List.mem_of_getElem? hslot)
        cases slot with
        | ended result world => rfl
        | idle since => cases hended
        | waiting phase wait since => cases hended
  have hidle : g.busy = false := by
    refine Bool.eq_false_iff.mpr fun hbusy => ?_
    obtain ⟨i, hi⟩ := h.attendance.busy.mp hbusy
    rw [haway i] at hi
    cases hi
  refine ⟨h.grant, hidle, List.eq_nil_iff_forall_not_mem.mpr fun queued hqueued => ?_, h.released⟩
  rw [(h.attendance.queue queued hqueued).1] at hidle
  cases hidle

theorem results?_of_over (hover : t.Over) :
    ∃ results, t.results? = some results ∧ results.length = t.slots.length := by
  obtain ⟨results, hresults, hlength, -⟩ := @results?_of_ended _ _ t (fun _ _ => True)
    fun slot hslot => by
      have hended := hover slot hslot
      cases slot with
      | ended result w => exact ⟨result, w, rfl, trivial⟩
      | idle since => cases hended
      | waiting phase wait since => cases hended
  exact ⟨results, hresults, hlength⟩

/-- The callers of a grant at rest come to an end, and have results. -/
theorem AtRest.ends (peer : Peer) {world : World} (h : AtRest place g world)
    (htickets : Ticketed callers) (ties : Ties) :
    ∃ fuel t results g', (ofJobs world (crowd (wire peer) place callers) ties).run fuel = t ∧
      t.step? = none ∧ t.Over ∧ Attentive (wire peer) place callers g' t ∧
      t.results? = some results ∧ results.length = callers.length ∧
      together (wire peer) place callers world ties =
        some (results, { t.world with agenda := [] }) := by
  have hfuel : toGo callers.length place (ofJobs world (crowd (wire peer) place callers) ties) ≤
      patience * (((crowd (wire peer) place callers).length + 1) *
        ((crowd (wire peer) place callers).length + 1)) := by
    rw [show (crowd (wire peer) place callers).length = callers.length from List.length_map ..]
    exact h.toGo_le
  obtain ⟨t, ht⟩ : ∃ t, (ofJobs world (crowd (wire peer) place callers) ties).run
      (patience * (((crowd (wire peer) place callers).length + 1) *
        ((crowd (wire peer) place callers).length + 1))) = t := ⟨_, rfl⟩
  obtain ⟨hdone, hover, g', hattentive⟩ := ht ▸ h.attentive.run htickets hfuel
  obtain ⟨results, hresults, hlength⟩ := results?_of_over hover
  exact ⟨_, t, results, g', ht, hdone, hover, hattentive, hresults,
    hlength.trans hattentive.length, complete_of_results ht hresults⟩

end

/-- Callers with their positions for tickets. -/
def numbered (callers : List (Instant × Caller)) : List (Instant × Caller) :=
  callers.mapIdx fun ticket entry => (entry.1, { entry.2 with ticket })

theorem numbered_ticket {callers : List (Instant × Caller)} : Ticketed (numbered callers) := by
  intro i entry h
  rw [numbered, List.getElem?_mapIdx, Option.map_eq_some_iff] at h
  obtain ⟨-, -, rfl⟩ := h
  rfl

/-- **Every caller ends, and makes one token request at most.**  Callers of a grant at rest
all come to an end, whatever the order of turns, cancellations, deadlines and answers, and
the run has a result for each of them, whichever of two timers of one instant goes off first;
then the grant is at rest again, with no more fetches begun than there were callers.  At any time
nobody is forgotten: whoever has not ended is in line, has set a timer, or is in the queue of a
fetch that is under way, so if nobody is in line and no timer is set, all have ended; and whoever
has sent a token request has sent one only, which is counted. -/
theorem callers_end (peer : Peer) {place : Nat} {callers : List (Instant × Caller)}
    (htickets : Ticketed callers) {world : World} {g : Grant} (hrest : AtRest place g world)
    (ties : Ties) :
    Inevitable Over (ofJobs world (crowd (wire peer) place callers) ties) ∧
    (∃ results world' g', together (wire peer) place callers world ties = some (results, world') ∧
      results.length = callers.length ∧ AtRest place g' world' ∧
      g'.begun ≤ g.begun + callers.length) ∧
    ∀ t, Reaches (ofJobs world (crowd (wire peer) place callers) ties) t →
      (∃ g', t.world.grants[place]? = some g' ∧ Attendance (roleAt t) g' ∧
        ∀ {k slot}, t.slots[k]? = some slot → Attended g' t.line k slot) ∧
      (t.line = [] → alarmsFrom 0 t.jobs t.slots = [] → t.Over) ∧
      (∃ senders, Senders (ofJobs world (crowd (wire peer) place callers) ties) senders t) ∧
      ∀ senders, Senders (ofJobs world (crowd (wire peer) place callers) ties) senders t →
        senders.Nodup ∧ (∀ i ∈ senders, i < callers.length) ∧
        (t.world.grant place).begun = g.begun + senders.length := by
  have hfirst : Attentive (wire peer) place callers g
      (ofJobs world (crowd (wire peer) place callers) ties) := hrest.attentive
  have hsenders {t : Timeline (Phase (wire peer).Phase) Result} {senders : List Ticket}
      (h : Senders (ofJobs world (crowd (wire peer) place callers) ties) senders t) :
      senders.Nodup ∧ (∀ i ∈ senders, i < callers.length) ∧
        (t.world.grant place).begun = g.begun + senders.length := by
    obtain ⟨⟨g', hattentive⟩, hasked⟩ := asked_of_senders hfirst htickets h
    exact ⟨hasked.nodup, fun i hi => hattentive.lt_of_hasAsked (hasked.hasAsked i hi),
      hasked.begun⟩
  refine ⟨hfirst.inevitable htickets, ?_, ?_⟩
  · obtain ⟨fuel, t, results, g', ht, -, hover, hattentive, -, hlength, htogether⟩ :=
      hrest.ends peer htickets ties
    have hreaches : Reaches (ofJobs world (crowd (wire peer) place callers) ties) t :=
      ht ▸ run_reaches _ _
    obtain ⟨hgrant, hidle, hunqueued, hreleased⟩ := hattentive.atRest hover
    refine ⟨results, _, g', htogether, hlength, ⟨hgrant, hidle, hunqueued, hreleased⟩, ?_⟩
    obtain ⟨senders, hsent⟩ := senders_of_reaches hfirst htickets hreaches
    obtain ⟨hnodup, hlt, hbegun⟩ := hsenders hsent
    rw [grant_eq hgrant] at hbegun
    rw [hbegun]
    exact Nat.add_le_add_left (length_le_of_nodup hnodup hlt) _
  · intro t hreaches
    obtain ⟨g', hattentive⟩ := hfirst.reaches htickets hreaches
    exact ⟨⟨g', hattentive.grant, hattentive.attendance, hattentive.attended⟩, hattentive.isOver,
      senders_of_reaches hfirst htickets hreaches, fun _ => hsenders⟩

/-- Callers none of whom has the time to wait for an answer: two run out of time, and the
third is canceled. -/
def hastyCallers : List (Instant × Caller) :=
  numbered [(0, { ticket := 0, deadline := some 5 }), (1, { ticket := 0, deadline := some 8 }),
    (2, { ticket := 0, cancelAt := some 12 })]

def newWorld : World := { grants := [{ credentials := { tokenUrl := {} } }] }

/-- One after the other takes over the fetch, and gives it up: three requests in all. -/
theorem hasty_callers_end :
    (∃ results world', together (wire issuingPeer) 0 hastyCallers newWorld =
      some (results, world') ∧ results.length = 3) ∧
    ∃ senders, senders.Nodup ∧ senders.length = 3 ∧
      Senders (ofJobs newWorld (crowd (wire issuingPeer) 0 hastyCallers)) senders
        ((ofJobs newWorld (crowd (wire issuingPeer) 0 hastyCallers)).run 24) := by
  have hrest : AtRest 0 { credentials := { tokenUrl := {} } } newWorld := ⟨rfl, rfl, rfl, rfl⟩
  obtain ⟨-, ⟨results, world', -, htogether, hlength, -⟩, hall⟩ :=
    @callers_end issuingPeer 0 hastyCallers numbered_ticket newWorld _ hrest .firstSet
  obtain ⟨-, -, ⟨senders, hsenders⟩, hbooks⟩ := hall _ (run_reaches 24 _)
  obtain ⟨hnodup, -, hbegun⟩ := hbooks senders hsenders
  refine ⟨⟨results, world', htogether, hlength⟩, senders, hnodup, ?_, hsenders⟩
  have hthree : (((ofJobs newWorld (crowd (wire issuingPeer) 0 hastyCallers)).run 24).world.grant
      0).begun = 3 := rfl
  rw [hthree] at hbegun
  exact (Nat.zero_add _).symm.trans hbegun.symm

end Acquire

end BearerAuth
