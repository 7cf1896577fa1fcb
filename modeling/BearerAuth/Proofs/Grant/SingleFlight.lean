import BearerAuth.Proofs.Grant.Progress

/-!
# One fetch for all

Callers in a `Rush` want a token of one grant, and none of them is ever canceled
or out of time.  When the grant has no token that is still fresh, and all of them
begin before the answer to the first one's token request comes, then one request
is all that is sent, and all end when its answer comes, with the same result
(`rush_shares_one_fetch`).  That is so in any order of turns that keeps nobody
waiting (`Timeline.Promptly`); and in any order at all, once all have begun and the
answer is still to come.

A run goes through two stages.  Callers come, and join the queue of the one that
fetches (`Gathering`); then the answer is there, and they come to hear of it, in the
queue or too late for it (`Sharing`).  What is so of the clock in them is kept apart
(`Timely`, `Punctual`).
-/

namespace BearerAuth

open Transport Timeline

/-- When the answer to an exchange comes to a caller that waits for it, and what it
is. -/
def Transport.answer (peer : Peer) (sent : List Exchange) (exchange : Exchange) :
    Instant × Reply :=
  match peer sent exchange with
  | .error failure => (exchange.instant, .error failure)
  | .ok delivery =>
      if delivery.delay ≤ 0 then (exchange.instant, delivery.reply)
      else (max exchange.instant (Clock.after exchange.instant delivery.delay), delivery.reply)

namespace Acquire

/-! ## A rush -/

/-- Callers that come for the token of one grant, each with the instant at which it
begins; `began` is when the first of them does. -/
structure Rush where
  peer : Peer
  place : Nat
  begins : List Instant
  world : World
  began : Instant

/-- What the reply to a fetch is to everybody that shares it. -/
def share (reply : Reply) : Result := (IssuedToken.ofReply reply).map fun _ => ()

/-- The reply does not say that its caller gave up. -/
def Answered (reply : Reply) : Prop :=
  ∀ failure, reply = .error failure → failure.isAbandonment = false

namespace Rush

/-- The callers: their tickets are their positions, and they have all the time in
the world. -/
def callers (rush : Rush) : List (Instant × Caller) :=
  rush.begins.mapIdx fun ticket instant => (instant, { ticket })

def grant (rush : Rush) : Grant := rush.world.grant rush.place

def exchange (rush : Rush) : Exchange := tokenExchange rush.grant rush.began

/-- When the answer to a token request comes. -/
def arrivalOf (rush : Rush) (exchange : Exchange) : Instant :=
  (answer rush.peer rush.world.sent exchange).1

/-- The answer to a token request. -/
def replyTo (rush : Rush) (exchange : Exchange) : Reply :=
  (answer rush.peer rush.world.sent exchange).2

def arrival (rush : Rush) : Instant := rush.arrivalOf rush.exchange

def reply (rush : Rush) : Reply := rush.replyTo rush.exchange

/-- What the answer is to a caller. -/
def result (rush : Rush) : Result := share rush.reply

/-- When a caller begins that is to begin at an instant. -/
def starts (rush : Rush) (instant : Instant) : Instant := max rush.world.now instant

/-- Nobody is at the grant yet, no caller finds a fresh token there, one caller is the
first, the others begin after it and before the answer to it comes, and the answer is
not that the first gave up. -/
structure Overlaps (rush : Rush) : Prop where
  rest : AtRest rush.place rush.grant rush.world
  stale : ∀ instant ∈ rush.begins, rush.grant.isFresh (rush.starts instant) = false
  during : ∃ (first : Ticket) (instant : Instant), rush.begins[first]? = some instant ∧
    rush.starts instant = rush.began ∧
    ∀ (other : Ticket) (instant' : Instant), rush.begins[other]? = some instant' → other ≠ first →
      rush.began ≤ rush.starts instant' ∧ rush.starts instant' < rush.arrival
  answered : Answered rush.reply

/-- The callers on a timeline. -/
abbrev Course (rush : Rush) := Timeline (Phase (wire rush.peer).Phase) Result

def first (rush : Rush) (ties : Ties) : rush.Course :=
  ofJobs rush.world (crowd (wire rush.peer) rush.place rush.callers) ties

end Rush

section

variable {rush : Rush} {ties : Ties} {t t' : rush.Course} {g g' : Grant} {i k : Ticket}
  {slot slot' : Slot (Phase (wire rush.peer).Phase) Result} {exchange : Exchange}
  {asked? asked?' : Option Exchange}

theorem callers_getElem? (rush : Rush) (i : Ticket) :
    rush.callers[i]? = rush.begins[i]?.map fun instant => (instant, { ticket := i }) :=
  List.getElem?_mapIdx

theorem callers_length (rush : Rush) : rush.callers.length = rush.begins.length :=
  List.length_mapIdx

theorem Rush.ticketed (rush : Rush) : Ticketed rush.callers := by
  intro i entry hentry
  rw [callers_getElem?, Option.map_eq_some_iff] at hentry
  obtain ⟨instant, -, rfl⟩ := hentry
  rfl

theorem began_le_arrival (rush : Rush) : rush.began ≤ rush.arrival := by
  rw [Rush.arrival, Rush.arrivalOf, answer]
  split
  · exact Int.le_refl _
  · split
    · exact Int.le_refl _
    · exact Int.le_max_left _ _

theorem Rush.Overlaps.began_le (h : rush.Overlaps) {instant : Instant}
    (hi : rush.begins[i]? = some instant) : rush.began ≤ rush.starts instant := by
  obtain ⟨first, instant', hfirst, hbegan, hothers⟩ := h.during
  by_cases hne : i = first
  · subst hne
    obtain rfl := Option.some.inj (hi.symm.trans hfirst)
    exact Int.le_of_eq hbegan.symm
  · exact (hothers i instant hi hne).1

/-- Whoever is the first, all but one begin before the answer comes. -/
theorem Rush.Overlaps.lt_arrival (h : rush.Overlaps) {instant instant' : Instant}
    (hi : rush.begins[i]? = some instant) (hk : rush.begins[k]? = some instant') (hne : i ≠ k) :
    rush.starts instant < rush.arrival := by
  obtain ⟨first, instant'', hfirst, hbegan, hothers⟩ := h.during
  by_cases heq : i = first
  · subst heq
    obtain rfl := Option.some.inj (hi.symm.trans hfirst)
    obtain ⟨hle, hlt⟩ := hothers k instant' hk (Ne.symm hne)
    rw [hbegan]
    exact Int.lt_of_le_of_lt hle hlt
  · exact (hothers i instant hi heq).2

/-- A token request of a caller that has all the time in the world, when nothing else has been
sent. -/
theorem unhurried_start {w w' : World} {progress : Progress (wire rush.peer).Phase Reply}
    (hsent : w.sent = rush.world.sent)
    (h : (wire rush.peer).start { ticket := i } exchange.url exchange.request w = (progress, w'))
    (hnow : exchange.instant = w.now) :
    w' = { w with sent := rush.world.sent ++ [exchange] } ∧
      (progress = .done (rush.replyTo exchange) ∧ rush.arrivalOf exchange = w.now ∨
        ∃ due, progress = .paused (rush.replyTo exchange) { timer := some due } ∧
          rush.arrivalOf exchange = max w.now due) := by
  have hexchange : (⟨w.now, exchange.url, exchange.request⟩ : Exchange) = exchange := by
    rw [← hnow]
  simp only [wire, hexchange, hsent] at h
  simp only [Rush.replyTo, Rush.arrivalOf, answer]
  cases hpeer : rush.peer rush.world.sent exchange with
  | error failure =>
      rw [hpeer] at h
      obtain ⟨rfl, rfl⟩ := Prod.mk.inj h
      exact ⟨rfl, .inl ⟨rfl, hnow⟩⟩
  | ok delivery =>
      rw [hpeer] at h
      by_cases hdelay : delivery.delay ≤ 0
      · simp [Wire.deliver, World.canceled, Caller.canceled, Caller.expired, hdelay] at h
        obtain ⟨rfl, rfl⟩ := h
        refine ⟨rfl, .inl ⟨?_, by simp only [hdelay, if_true, hnow]⟩⟩
        simp only [hdelay, if_true]
        rfl
      · simp [Wire.deliver, Wire.ending, World.canceled, Caller.canceled, Caller.expired,
          hdelay] at h
        obtain ⟨rfl, rfl⟩ := h
        refine ⟨rfl, .inr ⟨Clock.after w.now delivery.delay, ?_, ?_⟩⟩
        · simp only [hdelay, if_false]
          rfl
        · simp only [hdelay, if_false, hnow]

/-! ## While the callers come -/

def Present (rush : Rush) (asked? : Option Exchange) :
    Slot (Phase (wire rush.peer).Phase) Result → Prop
  | .idle _ => True
  | .waiting (.fetching reply) wait _ => ∃ exchange due, asked? = some exchange ∧
      reply = rush.replyTo exchange ∧ wait = { timer := some due } ∧
      rush.arrivalOf exchange = max exchange.instant due
  | .waiting (.joining seen) wait _ => seen = rush.grant.published ∧
      ∃ instant, wait = { timer := some instant, brief := true }
  | .waiting (.awaiting seen) wait _ => seen = rush.grant.published ∧ wait = {}
  | .waiting (.returning _) _ _ => False
  | .ended _ _ => False

/-- The grant, and what has been sent, before anyone has ended: a token request is under way, or
none has been made yet. -/
def Asks (rush : Rush) (g : Grant) (w : World) : Option Exchange → Prop
  | none => g = rush.grant ∧ w.sent = rush.world.sent
  | some exchange => (∃ queue, g = { rush.grant.beginFetch with queue }) ∧
      w.sent = rush.world.sent ++ [exchange]

/-- Callers come, and nobody has ended. -/
structure Gathering (rush : Rush) (asked? : Option Exchange) (g : Grant) (t : rush.Course) : Prop
    extends Attentive (wire rush.peer) rush.place rush.callers g t where
  asks : Asks rush g t.world asked?
  agenda : t.world.agenda = []
  nodup : t.line.Nodup
  line : ∀ {k : Ticket}, k ∈ t.line → t.slots[k]? = some (.idle none)
  present : ∀ {k : Ticket} {slot}, t.slots[k]? = some slot → Present rush asked? slot

theorem Attentive.begins (h : Attentive (wire rush.peer) rush.place rush.callers g t)
    (hslot : t.slots[i]? = some slot) :
    ∃ instant, rush.begins[i]? = some instant ∧
      rush.callers[i]? = some (instant, { ticket := i }) := by
  have hlt : i < rush.begins.length := by
    rw [← callers_length, ← h.length]
    exact (List.getElem?_eq_some_iff.mp hslot).1
  refine ⟨rush.begins[i], List.getElem?_eq_getElem hlt, ?_⟩
  rw [callers_getElem?, List.getElem?_eq_getElem hlt]
  rfl

theorem Attentive.has_caller (h : Attentive (wire rush.peer) rush.place rush.callers g t)
    (hslot : t.slots[i]? = some slot) : ¬ (rush.callers[i]? = none ∨ t.slots[i]? = none) := by
  obtain ⟨instant, -, hentry⟩ := h.begins hslot
  exact not_none_or hentry hslot

theorem Asks.published {w : World} (h : Asks rush g w asked?) :
    g.published = rush.grant.published := by
  cases asked? with
  | none => rw [h.1]
  | some exchange =>
      obtain ⟨⟨queue, rfl⟩, -⟩ := h
      rfl

theorem Asks.join {w : World} (h : Asks rush g w asked?) (hbusy : g.busy = true)
    (hidle : rush.grant.busy = false) (i : Ticket) :
    Asks rush (g.join i g.published) (w.setGrant rush.place (g.join i g.published)) asked? := by
  cases asked? with
  | none =>
      rw [h.1, hidle] at hbusy
      cases hbusy
  | some exchange =>
      obtain ⟨⟨queue, rfl⟩, hsent⟩ := h
      exact ⟨⟨_, rfl⟩, hsent⟩

theorem Asks.isFresh {w : World} (h : Asks rush g w asked?) (now : Instant) :
    g.isFresh now = rush.grant.isFresh now := by
  cases asked? with
  | none => rw [h.1]
  | some exchange =>
      obtain ⟨⟨queue, rfl⟩, -⟩ := h
      rfl

theorem Asks.some_iff {w : World} (h : Asks rush g w asked?) (hidle : rush.grant.busy = false) :
    g.busy = true ↔ ∃ exchange, asked? = some exchange := by
  cases asked? with
  | none =>
      rw [h.1, hidle]
      exact ⟨nofun, nofun⟩
  | some exchange =>
      obtain ⟨⟨queue, rfl⟩, -⟩ := h
      exact ⟨fun _ => ⟨exchange, rfl⟩, fun _ => rfl⟩

/-- The line after a turn of a caller that heeds no cancellation, in which nobody is released. -/
theorem line_turned {job : Job (Phase (wire rush.peer).Phase) Result} {w' : World}
    (hreleased : w'.released = []) (hheeds : slot'.heedsCancellation = false) :
    (t.turned i job slot' w').line = t.line.erase i := by
  show join (t.line.erase i) (summoned i job slot' w') = _
  rw [summoned, hreleased, hheeds]
  rfl

theorem Present.not_wants {phase : Phase (wire rush.peer).Phase} {wait : Wait} {since : Nat}
    (h : Present rush asked? (.waiting phase wait since)) : ¬ Wants (some phase) := by
  cases phase with
  | fetching phase => exact id
  | joining seen => exact id
  | awaiting seen => exact id
  | returning ending => exact h.elim

theorem Present.heedless (h : Present rush asked? slot) : slot.heedsCancellation = false := by
  match slot with
  | .idle _ => rfl
  | .waiting (.fetching _) _ _ =>
      obtain ⟨-, -, -, -, rfl, -⟩ := h
      rfl
  | .waiting (.joining _) _ _ =>
      obtain ⟨-, -, rfl⟩ := h
      rfl
  | .waiting (.awaiting _) _ _ =>
      obtain ⟨-, rfl⟩ := h
      rfl
  | .waiting (.returning _) _ _ => exact h.elim
  | .ended _ _ => rfl

theorem Present.mono (h : Present rush asked? slot)
    (hasked : ∀ exchange, asked? = some exchange → asked?' = some exchange) :
    Present rush asked?' slot := by
  match slot with
  | .idle _ => exact trivial
  | .waiting (.fetching _) _ _ =>
      obtain ⟨exchange, due, hsome, hrest⟩ := h
      exact ⟨exchange, due, hasked exchange hsome, hrest⟩
  | .waiting (.joining _) _ _ => exact h
  | .waiting (.awaiting _) _ _ => exact h
  | .waiting (.returning _) _ _ => exact h
  | .ended _ _ => exact h

theorem Gathering.fill (h : Gathering rush asked? g t)
    {job : Job (Phase (wire rush.peer).Phase) Result} {w' : World}
    (hattentive : Attentive (wire rush.peer) rush.place rush.callers g' (t.turned i job slot' w'))
    (hasks : Asks rush g' w' asked?') (hagenda : w'.agenda = []) (hreleased : w'.released = [])
    (hpresent : Present rush asked?' slot')
    (hasked : ∀ exchange, asked? = some exchange → asked?' = some exchange) :
    Gathering rush asked?' g' (t.turned i job slot' w') where
  toAttentive := hattentive
  asks := by
    cases asked?' with
    | none => exact hasks
    | some exchange => exact hasks
  agenda := hagenda
  nodup := line_turned hreleased hpresent.heedless ▸ h.nodup.erase i
  line := by
    intro k hk
    rw [line_turned hreleased hpresent.heedless] at hk
    obtain ⟨hne, hk⟩ := (List.Nodup.mem_erase_iff h.nodup).mp hk
    rw [turned_slot_ne hne]
    exact h.line hk
  present := by
    intro k slot hk
    rcases getElem?_set_cases hk with ⟨-, rfl⟩ | ⟨-, hold⟩
    · exact hpresent
    · exact (h.present hold).mono hasked

/-! ### The clock while the callers come -/

/-- Nobody is kept waiting: whoever is to begin does so at its instant, and before the answer is
due. -/
structure Timely (rush : Rush) (asked? : Option Exchange) (t : rush.Course) : Prop where
  later : rush.world.now ≤ t.world.now
  early : t.line ≠ [] → t.world.now = rush.world.now
  timers : ∀ {k : Ticket} {since instant}, t.slots[k]? = some (.idle (some since)) →
    rush.begins[k]? = some instant → rush.world.now < instant ∧ t.world.now ≤ instant
  brief : ∀ {k : Ticket} {seen wait since instant},
    t.slots[k]? = some (.waiting (.joining seen) wait since) → wait.timer = some instant →
    instant ≤ t.world.now
  unasked : asked? = none → t.world.now ≤ rush.began
  asked : ∀ exchange, asked? = some exchange → exchange = rush.exchange ∧
    rush.began ≤ t.world.now ∧ t.world.now ≤ rush.arrival

theorem starts_of_due {opens now begins : Int} (h : opens < begins) (hle : now ≤ begins)
    (hdue : begins ≤ now) : now = max opens begins := by
  omega

theorem Timely.begins_at (htimely : Timely rush asked? t) (h : Gathering rush asked? g t)
    {instant : Instant} {since : Option Nat} (hslot : t.slots[i]? = some (.idle since))
    (hbegins : rush.begins[i]? = some instant) (hdue : instant ≤ t.world.now) :
    t.world.now = rush.starts instant := by
  cases since with
  | none =>
      cases h.attended hslot with
      | first hin =>
          have hnow := htimely.early (List.ne_nil_of_mem hin)
          rw [hnow] at hdue ⊢
          exact (Int.max_eq_left hdue).symm
  | some since =>
      obtain ⟨hopens, hle⟩ := htimely.timers hslot hbegins
      exact starts_of_due hopens hle hdue

theorem Timely.le_starts (htimely : Timely rush asked? t) (h : Gathering rush asked? g t)
    {instant : Instant} {since : Option Nat} (hslot : t.slots[k]? = some (.idle since))
    (hbegins : rush.begins[k]? = some instant) : t.world.now ≤ rush.starts instant := by
  cases since with
  | none =>
      cases h.attended hslot with
      | first hin =>
          rw [htimely.early (List.ne_nil_of_mem hin)]
          exact Int.le_max_left _ _
  | some since =>
      exact Int.le_trans (htimely.timers hslot hbegins).2 (Int.le_max_right _ _)

theorem Timely.fill (htimely : Timely rush asked? t)
    {job : Job (Phase (wire rush.peer).Phase) Result} {w' : World} (hnow : w'.now = t.world.now)
    (hreleased : w'.released = []) (hheeds : slot'.heedsCancellation = false)
    (htimer : ∀ {since instant}, slot' = .idle (some since) → rush.begins[i]? = some instant →
      rush.world.now < instant ∧ t.world.now ≤ instant)
    (hbrief : ∀ {seen wait since instant}, slot' = .waiting (.joining seen) wait since →
      wait.timer = some instant → instant ≤ t.world.now)
    (hunasked : asked?' = none → asked? = none)
    (hasked : ∀ exchange, asked?' = some exchange → asked? ≠ some exchange →
      exchange = rush.exchange ∧ t.world.now = rush.began) :
    Timely rush asked?' (t.turned i job slot' w') where
  later := hnow ▸ htimely.later
  early := by
    intro hne
    rw [line_turned hreleased hheeds] at hne
    exact hnow.trans (htimely.early fun hnil => hne (by rw [hnil]; rfl))
  timers := by
    intro k since instant hk hbegins
    show _ ∧ w'.now ≤ instant
    rw [hnow]
    rcases getElem?_set_cases hk with ⟨rfl, hself⟩ | ⟨-, hold⟩
    · exact htimer hself hbegins
    · exact htimely.timers hold hbegins
  brief := by
    intro k seen wait since instant hk hsome
    show instant ≤ w'.now
    rw [hnow]
    rcases getElem?_set_cases hk with ⟨rfl, hself⟩ | ⟨-, hold⟩
    · exact hbrief hself hsome
    · exact htimely.brief hold hsome
  unasked hnone := hnow ▸ htimely.unasked (hunasked hnone)
  asked := by
    intro exchange hsome
    show _ ∧ rush.began ≤ w'.now ∧ w'.now ≤ rush.arrival
    rw [hnow]
    by_cases heq : asked? = some exchange
    · exact htimely.asked exchange heq
    · obtain ⟨hexchange, hbegan⟩ := hasked exchange hsome heq
      exact ⟨hexchange, Int.le_of_eq hbegan.symm, hbegan ▸ began_le_arrival rush⟩

/-! ## Once the answer is there -/

/-- How a caller stands that shares a reply, or is to hear of it. -/
def Shares (rush : Rush) (reply : Reply) : Slot (Phase (wire rush.peer).Phase) Result → Prop
  | .idle _ => False
  | .waiting (.fetching _) _ _ => False
  | .waiting (.joining seen) _ _ => seen = rush.grant.published
  | .waiting (.awaiting seen) _ _ => seen = rush.grant.published
  | .waiting (.returning ending) _ _ => ending.result? = some (share reply)
  | .ended result _ => result = share reply

/-- The answer to a token request has been published, and all who are still there come to hear
of it. -/
structure Sharing (rush : Rush) (exchange : Exchange) (g : Grant) (t : rush.Course) : Prop
    extends Attentive (wire rush.peer) rush.place rush.callers g t where
  idle : g.busy = false
  published : g.published = rush.grant.published + 1
  begun : g.begun = rush.grant.begun + 1
  ending : (Ending.ofGrant g).result? = some (share (rush.replyTo exchange))
  sent : t.world.sent = rush.world.sent ++ [exchange]
  agenda : t.world.agenda = []
  nodup : t.line.Nodup
  line : ∀ {k : Ticket}, k ∈ t.line →
    ∃ seen wait since, t.slots[k]? = some (.waiting (.awaiting seen) wait since)
  shares : ∀ {k : Ticket} {slot}, t.slots[k]? = some slot →
    Shares rush (rush.replyTo exchange) slot

/-- Nobody is kept waiting: whoever is still there ends when the answer comes. -/
structure Punctual (rush : Rush) (t : rush.Course) : Prop where
  due : ∀ {k : Ticket} {phase wait since instant}, t.slots[k]? = some (.waiting phase wait since) →
    wait.timer = some instant → instant ≤ t.world.now
  now : t.Over ∨ t.world.now = rush.arrival
  ended : ∀ {k : Ticket} {result w}, t.slots[k]? = some (.ended result w) → w.now = rush.arrival

/-- How many turns a caller takes at most, from where it stands. -/
def turns {φ : Type} : Slot (Phase φ) Result → Nat
  | .idle none => 5
  | .idle (some _) => 4
  | .waiting (.joining _) _ _ => 3
  | .waiting (.awaiting _) _ _ => 2
  | .waiting (.fetching _) _ _ => 1
  | .waiting (.returning _) _ _ => 1
  | .ended _ _ => 0

def turnsLeft (t : rush.Course) : Nat := (t.slots.map turns).sum

theorem turnsLeft_turned_lt {job : Job (Phase (wire rush.peer).Phase) Result} {w' : World}
    (hslot : t.slots[i]? = some slot) (hlt : turns slot' < turns slot) :
    turnsLeft (t.turned i job slot' w') < turnsLeft t := by
  have hsum := @sum_map_set _ t.slots i slot slot' turns hslot
  show ((t.slots.set i slot').map turns).sum < (t.slots.map turns).sum
  omega

theorem Sharing.fill (h : Sharing rush exchange g t)
    {job : Job (Phase (wire rush.peer).Phase) Result} (hslot : t.slots[i]? = some slot)
    (hattentive : Attentive (wire rush.peer) rush.place rush.callers g'
      (t.turned i job slot' t.world))
    (hheeds : slot'.heedsCancellation = false)
    (hshares : Shares rush (rush.replyTo exchange) slot') (hlt : turns slot' < turns slot)
    (htimer : ∀ {phase wait since instant}, slot' = .waiting phase wait since →
      wait.timer = some instant → instant ≤ t.world.now)
    (hended : ∀ {result w}, slot' = .ended result w → w = t.world) :
    Sharing rush exchange g (t.turned i job slot' t.world) ∧
      (Punctual rush t → Punctual rush (t.turned i job slot' t.world)) ∧
      turnsLeft (t.turned i job slot' t.world) < turnsLeft t := by
  obtain rfl : g = g' := Option.some.inj (h.grant.symm.trans hattentive.grant)
  refine ⟨{ h with
    toAttentive := hattentive
    nodup := line_turned h.released hheeds ▸ h.nodup.erase i
    line := ?_
    shares := ?_ }, fun hpunctual => ⟨?_, .inr ?_, ?_⟩, turnsLeft_turned_lt hslot hlt⟩
  · intro k hk
    rw [line_turned h.released hheeds] at hk
    obtain ⟨hne, hk⟩ := (List.Nodup.mem_erase_iff h.nodup).mp hk
    rw [turned_slot_ne hne]
    exact h.line hk
  · intro k slot₁ hk
    rcases getElem?_set_cases hk with ⟨-, rfl⟩ | ⟨-, hold⟩
    · exact hshares
    · exact h.shares hold
  · intro k phase wait since instant hk hsome
    rcases getElem?_set_cases hk with ⟨-, hself⟩ | ⟨-, hold⟩
    · exact htimer hself hsome
    · exact hpunctual.due hold hsome
  · refine hpunctual.now.resolve_left fun hover => ?_
    have hdone := hover slot (List.mem_of_getElem? hslot)
    cases slot with
    | ended result w => exact absurd hlt (Nat.not_lt_zero _)
    | idle since => cases hdone
    | waiting phase wait since => cases hdone
  · intro k result w hk
    rcases getElem?_set_cases hk with ⟨-, hself⟩ | ⟨-, hold⟩
    · rw [hended hself]
      refine hpunctual.now.resolve_left fun hover => ?_
      have hdone := hover slot (List.mem_of_getElem? hslot)
      cases slot with
      | ended result w => exact absurd hlt (Nat.not_lt_zero _)
      | idle since => cases hdone
      | waiting phase wait since => cases hdone
    · exact hpunctual.ended hold

theorem Shares.not_wants {reply : Reply} {instant now : Instant}
    {before : Option (Phase (wire rush.peer).Phase)} (h : Shares rush reply slot)
    (htakes : TakesUp instant now slot before) : ¬ Wants before := by
  cases htakes with
  | beginning => exact h.elim
  | @phase phase _ _ =>
      cases phase with
      | fetching reply => exact id
      | joining seen => exact id
      | awaiting seen => exact id
      | returning ending =>
          rintro rfl
          cases h

theorem Sharing.taken (h : Sharing rush exchange g t)
    (htaken : Taken (wire rush.peer) rush.place rush.callers t i t') :
    Sharing rush exchange g t' ∧ (Punctual rush t → Punctual rush t') ∧
      turnsLeft t' < turnsLeft t := by
  obtain ⟨⟨g', hattentive⟩, -⟩ := h.toAttentive.taken rush.ticketed htaken
  cases htaken with
  | nobody hnone hline =>
      obtain ⟨seen, wait, since, hslot⟩ := h.line hline
      exact absurd hnone (h.has_caller hslot)
  | early _ hslot _ _ => exact (h.shares hslot).elim
  | spent _ hslot hline =>
      obtain ⟨seen, wait, since, hslot'⟩ := h.line hline
      rw [hslot] at hslot'
      cases hslot'
  | @works entry slot before hentry hslot htakes _ =>
      obtain ⟨exchange?, reply?, hturn⟩ := turnFrom_turn entry.2 h.grant before
      have hshares := h.shares hslot
      revert hattentive
      generalize turnFrom (wire rush.peer) rush.place entry.2 before t.world = stretch at hturn ⊢
      intro hattentive
      have hnot := hshares.not_wants htakes
      have hmissed : g.published ≠ rush.grant.published := h.published ▸ Nat.succ_ne_self _
      cases hturn with
      | serves hwants _ => exact absurd hwants hnot
      | sees hwants _ => exact absurd hwants hnot
      | asks hfetches _ => exact absurd hfetches.wants hnot
      | exchanges hfetches _ => exact absurd hfetches.wants hnot
      | continues => cases htakes with | phase => exact hshares.elim
      | receives => cases htakes with | phase => exact hshares.elim
      | joins => cases htakes with | phase => exact absurd hshares hmissed
      | leaves => cases htakes with | phase => exact absurd hshares hmissed
      | late _ =>
          cases htakes with
          | phase =>
              refine h.fill hslot hattentive rfl hshares (Nat.lt_succ_self _) ?_ nofun
              rintro _ _ _ _ ⟨⟩ ⟨⟩
              exact Int.le_refl _
      | hears _ =>
          cases htakes with
          | phase =>
              refine h.fill hslot hattentive rfl h.ending (Nat.lt_succ_self _) ?_ nofun
              rintro _ _ _ _ ⟨⟩ ⟨⟩
              exact Int.le_refl _
      | ends hresult =>
          cases htakes with
          | phase =>
              have hsame : _ = some (share (rush.replyTo exchange)) := hshares
              rw [hresult] at hsame
              refine h.fill hslot hattentive rfl (Option.some.inj hsame) (Nat.lt_succ_self _)
                nofun ?_
              rintro _ _ ⟨⟩
              rfl

/-- What is not said to be given up is not: a reply without a token is no abandonment either. -/
theorem Answered.outcome {reply : Reply} (h : Answered reply) {failure : Failure}
    (hfailure : IssuedToken.ofReply reply = .error failure) : failure.isAbandonment = false := by
  simp only [IssuedToken.ofReply] at hfailure
  split at hfailure
  · obtain rfl := Except.error.inj hfailure
    exact h _ rfl
  · split at hfailure
    · cases hfailure
    · obtain rfl := Except.error.inj hfailure
      rfl

theorem Answered.ofGrant {reply : Reply} (h : Answered reply) (g : Grant) (now : Instant) :
    (Ending.ofGrant (g.publish now (IssuedToken.ofReply reply))).result? = some (share reply) := by
  cases houtcome : IssuedToken.ofReply reply with
  | ok issued =>
      simp [Ending.ofGrant, Ending.result?, share, houtcome, Grant.publish, Grant.keepToken,
        Except.map]
  | error failure =>
      simp [Ending.ofGrant, Ending.result?, share, houtcome, Grant.publish, Grant.keepFailure,
        Except.map, h.outcome houtcome]

/-- All but one have begun. -/
def OthersHere (i : Ticket) (t : rush.Course) : Prop :=
  ∀ {k : Ticket} {since : Option Nat}, k ≠ i → t.slots[k]? ≠ some (.idle since)

/-- In a turn the reply to a token request is published. -/
structure Lands (rush : Rush) (asked? : Option Exchange) (exchange : Exchange) (i : Ticket)
    (t t' : rush.Course) : Prop where
  asked : ∀ exchange', asked? = some exchange' → exchange' = exchange
  ended : ∃ result w, t'.slots[i]? = some (.ended result w) ∧ w.now = t.world.now
  others : ∀ {k : Ticket}, k ≠ i → t'.slots[k]? = t.slots[k]?
  now : t'.world.now = t.world.now
  shares : OthersHere i t → Answered (rush.replyTo exchange) →
    ∃ g', Sharing rush exchange g' t'
  fewer : turnsLeft t' < turnsLeft t

/-- Whoever is in the queue waits there, and does not take the turn in which it is released. -/
theorem Gathering.released_waits (h : Gathering rush asked? g t)
    (hnot : roleAt t i ≠ .awaiting g.published) (hk : k ∈ g.released) :
    k ≠ i ∧ ∃ seen wait since, t.slots[k]? = some (.waiting (.awaiting seen) wait since) := by
  obtain ⟨queued, hqueued, rfl⟩ := List.mem_map.mp hk
  have hawaiting := (h.attendance.queue queued hqueued).2.2
  obtain ⟨wait, since, hslot⟩ := slot_of_awaiting hawaiting
  exact ⟨fun heq => hnot (heq ▸ hawaiting), _, wait, since, hslot⟩

/-- A caller that was there before the reply shares it, unless it fetches itself. -/
theorem Present.shares {reply : Reply} (h : Present rush asked? slot)
    (hbegun : ∀ since, slot ≠ .idle since)
    (hnot : ∀ phase wait since, slot ≠ .waiting (.fetching phase) wait since) :
    Shares rush reply slot := by
  match slot with
  | .idle since => exact absurd rfl (hbegun since)
  | .waiting (.fetching phase) wait since => exact absurd rfl (hnot phase wait since)
  | .waiting (.joining _) _ _ => exact h.1
  | .waiting (.awaiting _) _ _ => exact h.1
  | .waiting (.returning _) _ _ => exact h.elim
  | .ended _ _ => exact h.elim

theorem Gathering.lands (h : Gathering rush asked? g t)
    {job : Job (Phase (wire rush.peer).Phase) Result} {w : World} {reply : Reply}
    (hattentive : Attentive (wire rush.peer) rush.place rush.callers g'
      (t.turned i job (.after t.turn (finish rush.place reply w))
        (finish rush.place reply w : Stretch (Phase (wire rush.peer).Phase) Result).2))
    (hslot : t.slots[i]? = some slot) (hnot : roleAt t i ≠ .awaiting g.published)
    (hpos : 0 < turns slot)
    {queue : List Queued} (hqueue : g.queue = queue)
    (hgrant : w.grants[rush.place]? = some { rush.grant.beginFetch with queue })
    (hreply : reply = rush.replyTo exchange)
    (hasked : ∀ exchange', asked? = some exchange' → exchange' = exchange)
    (hsent : w.sent = rush.world.sent ++ [exchange]) (hnow : w.now = t.world.now)
    (hagenda : w.agenda = []) (hreleased : w.released = []) :
    Lands rush asked? exchange i t (t.turned i job (.after t.turn (finish rush.place reply w))
      (finish rush.place reply w : Stretch (Phase (wire rush.peer).Phase) Result).2) := by
  subst hreply hqueue
  have hrecords := Records.publish (w := w) ⟨hgrant, rfl, rfl, (List.append_nil _).symm⟩
    (IssuedToken.ofReply (rush.replyTo exchange))
  refine ⟨hasked, ⟨_, _, turned_slot hslot, hrecords.now.trans hnow⟩, turned_slot_ne,
    hrecords.now.trans hnow, fun hothers hanswered => ⟨g', ?_⟩, turnsLeft_turned_lt hslot hpos⟩
  obtain rfl := Option.some.inj (hrecords.grant.symm.trans hattentive.grant)
  refine { toAttentive := hattentive, idle := Grant.publish_busy _ _ _, published := ?_, begun := ?_
           ending := ?_, sent := ?_, agenda := ?_, nodup := nodup_join _ (h.nodup.erase i)
           line := ?_, shares := ?_ }
  · rw [Grant.publish_published]
    rfl
  · rw [Grant.publish_begun]
    rfl
  · exact hanswered.ofGrant _ _
  · exact (publish_sent rush.place (IssuedToken.ofReply (rush.replyTo exchange)) w).trans hsent
  · exact hrecords.agenda.trans hagenda
  · intro k hk
    rcases mem_join.mp hk with hold | hnew
    · obtain ⟨hne, hk⟩ := (List.Nodup.mem_erase_iff h.nodup).mp hold
      exact absurd (h.line hk) (hothers hne)
    · have hreleased' : k ∈ (publish rush.place (IssuedToken.ofReply (rush.replyTo exchange))
          w).released := by
        rcases List.mem_append.mp hnew with hreleased' | hself
        · exact hreleased'
        · cases hself
      rw [hrecords.released, hreleased, List.nil_append] at hreleased'
      obtain ⟨hne, hslot'⟩ := h.released_waits hnot hreleased'
      rw [turned_slot_ne hne]
      exact hslot'
  · intro k slot₁ hk
    rcases getElem?_set_cases hk with ⟨-, hself⟩ | ⟨hne, hold⟩
    · exact hself ▸ rfl
    · refine (h.present hold).shares (fun since heq => hothers hne (heq ▸ hold)) ?_
      rintro phase wait since rfl
      -- nobody fetches any more
      have hbusy := hattentive.attendance.busy.mpr ⟨k, roleAt_of_slot hk⟩
      rw [Grant.publish_busy] at hbusy
      cases hbusy

/-- What a turn comes to while callers gather: they still do, or the answer is there, or a caller
has found a fresh token. -/
inductive Comes (rush : Rush) (asked? : Option Exchange) (i : Ticket) (t t' : rush.Course) : Prop
  | gathers {asked?' : Option Exchange} {g' : Grant} : Gathering rush asked?' g' t' →
      (∀ exchange, asked? = some exchange → asked?' = some exchange) →
      (rush.Overlaps → Timely rush asked? t → Timely rush asked?' t') →
      turnsLeft t' < turnsLeft t → Comes rush asked? i t t'
  | lands {exchange : Exchange} : Lands rush asked? exchange i t t' →
      (rush.Overlaps → Timely rush asked? t → exchange = rush.exchange ∧
        t.world.now = rush.arrival) → Comes rush asked? i t t'
  | served {result : Result} {w : World} {since : Option Nat} :
      t.slots[i]? = some (.idle since) → t'.slots[i]? = some (.ended result w) →
      (rush.Overlaps → Timely rush asked? t → False) → Comes rush asked? i t t'

theorem arrived {began now due arrival : Int} (hdue : arrival = max began due)
    (hbegan : began ≤ now) (hpassed : due ≤ now) (hle : now ≤ arrival) : now = arrival := by
  omega

/-- A turn that is none of the fetch leaves the callers gathering. -/
theorem Gathering.stays (h : Gathering rush asked? g t)
    {job : Job (Phase (wire rush.peer).Phase) Result} {w' : World}
    (hattentive : Attentive (wire rush.peer) rush.place rush.callers g' (t.turned i job slot' w'))
    (hasks : Asks rush g' w' asked?) (hagenda : w'.agenda = []) (hreleased : w'.released = [])
    (hnow : w'.now = t.world.now) (hpresent : Present rush asked? slot')
    (hslot : t.slots[i]? = some slot) (hlt : turns slot' < turns slot)
    (htimer : Timely rush asked? t → ∀ {since instant}, slot' = .idle (some since) →
      rush.begins[i]? = some instant → rush.world.now < instant ∧ t.world.now ≤ instant)
    (hbrief : ∀ {seen wait since instant}, slot' = .waiting (.joining seen) wait since →
      wait.timer = some instant → instant ≤ t.world.now) :
    Comes rush asked? i t (t.turned i job slot' w') :=
  .gathers (h.fill hattentive hasks hagenda hreleased hpresent fun _ => id) (fun _ => id)
    (fun _ htimely => htimely.fill hnow hreleased hpresent.heedless (htimer htimely) hbrief id
      fun _ hsome hnot => absurd hsome hnot)
    (turnsLeft_turned_lt hslot hlt)

/-- Nobody has made a token request when a caller comes to fetch. -/
theorem Gathering.unasked (h : Gathering rush asked? g t)
    (hrest : AtRest rush.place rush.grant rush.world)
    (hfetches : Fetches g t.world.now (none : Option (Phase (wire rush.peer).Phase))) :
    asked? = none := by
  cases asked? with
  | none => rfl
  | some exchange =>
      have hbusy := (h.asks.some_iff hrest.idle).mpr ⟨exchange, rfl⟩
      rw [hfetches.idle] at hbusy
      cases hbusy

/-- The first of the callers makes the token request. -/
theorem Timely.first_exchange (htimely : Timely rush none t) (hrush : rush.Overlaps)
    (h : Gathering rush none g t) {instant : Instant} {since : Option Nat}
    (hslot : t.slots[i]? = some (.idle since)) (hbegins : rush.begins[i]? = some instant)
    (hdue : instant ≤ t.world.now) :
    tokenExchange g t.world.now = rush.exchange ∧ t.world.now = rush.began := by
  have hnow : t.world.now = rush.began := by
    refine Int.le_antisymm (htimely.unasked rfl) ?_
    rw [htimely.begins_at h hslot hbegins hdue]
    exact hrush.began_le hbegins
  refine ⟨?_, hnow⟩
  rw [h.asks.1, hnow]
  rfl

/-- The token request of the first caller, as it starts: its answer is there at once, or comes
when its timer goes off. -/
theorem Gathering.request (h : Gathering rush none g t) {w' : World}
    {progress : Progress (wire rush.peer).Phase Reply}
    (hstart : (wire rush.peer).start { ticket := i } g.credentials.tokenUrl g.credentials.request
      (t.world.setGrant rush.place g.beginFetch) = (progress, w')) :
    w'.grants[rush.place]? = some g.beginFetch ∧ g.beginFetch = rush.grant.beginFetch ∧
      w'.sent = rush.world.sent ++ [tokenExchange g t.world.now] ∧ w'.now = t.world.now ∧
      w'.agenda = [] ∧ w'.released = [] ∧
      (progress = .done (rush.replyTo (tokenExchange g t.world.now)) ∧
          rush.arrivalOf (tokenExchange g t.world.now) = t.world.now ∨
        ∃ due, progress =
            .paused (rush.replyTo (tokenExchange g t.world.now)) { timer := some due } ∧
          rush.arrivalOf (tokenExchange g t.world.now) = max t.world.now due) := by
  obtain ⟨hgrant, hsent⟩ := h.asks
  obtain ⟨hg', houtward⟩ := start_leaves (wire_keepsApart rush.peer) h.grant hstart
  obtain ⟨hworld, hprogress⟩ := @unhurried_start _ _ (tokenExchange g t.world.now)
    (t.world.setGrant rush.place g.beginFetch) _ _ hsent hstart rfl
  exact ⟨hg', by rw [hgrant], by rw [hworld], houtward.now, houtward.agenda.trans h.agenda,
    houtward.released.trans h.released, hprogress⟩

theorem Gathering.begins_turn (h : Gathering rush asked? g t)
    (hrest : AtRest rush.place rush.grant rush.world) {instant : Instant} {since : Option Nat}
    (hslot : t.slots[i]? = some (.idle since)) (hbegins : rush.begins[i]? = some instant)
    (hdue : instant ≤ t.world.now) {exchange? : Option Exchange} {reply? : Option Reply}
    {stretch : Stretch (Phase (wire rush.peer).Phase) Result}
    (hattentive : Attentive (wire rush.peer) rush.place rush.callers g'
      (t.turned i (job (wire rush.peer) rush.place instant { ticket := i })
        (.after t.turn stretch) stretch.2))
    (hturn : Turn (wire rush.peer) rush.place { ticket := i } t.world g none exchange? reply?
      stretch) :
    Comes rush asked? i t (t.turned i (job (wire rush.peer) rush.place instant { ticket := i })
      (.after t.turn stretch) stretch.2) := by
  have hturns : 4 ≤ turns (.idle since : Slot (Phase (wire rush.peer).Phase) Result) := by
    cases since with
    | none => exact Nat.le_succ 4
    | some since => exact Nat.le_refl 4
  have hpos : 0 < turns (.idle since : Slot (Phase (wire rush.peer).Phase) Result) :=
    Nat.lt_of_lt_of_le (Nat.zero_lt_succ 3) hturns
  cases hturn with
  | serves _ hfresh =>
      refine .served hslot (turned_slot hslot) fun hrush htimely => ?_
      rw [h.asks.isFresh, htimely.begins_at h hslot hbegins hdue,
        hrush.stale instant (List.mem_of_getElem? hbegins)] at hfresh
      cases hfresh
  | sees _ hbusy =>
      obtain rfl : g = g' := Option.some.inj (h.grant.symm.trans hattentive.grant)
      refine h.stays hattentive h.asks h.agenda h.released rfl ⟨h.asks.published, _, rfl⟩ hslot
        hturns (fun _ => nofun) ?_
      rintro _ _ _ _ ⟨⟩ ⟨⟩
      exact Int.le_refl _
  | @asks _ phase wait w' hfetches hstart =>
      obtain rfl := h.unasked hrest hfetches
      obtain ⟨hg', hfetch, hsent, hnow, hagenda, hreleased, hprogress⟩ := h.request hstart
      obtain ⟨hdone, -⟩ | ⟨due, hpaused, harrival⟩ := hprogress
      · cases hdone
      · obtain ⟨rfl, rfl⟩ := Progress.paused.inj hpaused
        obtain rfl := Option.some.inj (hg'.symm.trans hattentive.grant)
        have hfetching : Present rush (some (tokenExchange g t.world.now))
            (.waiting (.fetching (rush.replyTo (tokenExchange g t.world.now)))
              { timer := some due } t.turn) := ⟨_, due, rfl, rfl, rfl, harrival⟩
        have hasks : Asks rush g.beginFetch w' (some (tokenExchange g t.world.now)) :=
          ⟨⟨_, hfetch⟩, hsent⟩
        refine .gathers (h.fill hattentive hasks hagenda hreleased hfetching nofun) nofun
          (fun hrush htimely => ?_)
          (turnsLeft_turned_lt hslot (Nat.lt_of_lt_of_le (show 1 < 4 by decide) hturns))
        refine htimely.fill hnow hreleased rfl nofun nofun nofun ?_
        rintro _ ⟨⟩ -
        exact htimely.first_exchange hrush h hslot hbegins hdue
  | @exchanges _ reply w' hfetches hstart =>
      obtain rfl := h.unasked hrest hfetches
      obtain ⟨hg', hfetch, hsent, hnow, hagenda, hreleased, hprogress⟩ := h.request hstart
      obtain ⟨hdone, harrival⟩ | ⟨due, hpaused, -⟩ := hprogress
      · obtain rfl := Progress.done.inj hdone
        refine .lands (h.lands hattentive hslot ?_ hpos rfl ?_ rfl nofun hsent hnow hagenda
          hreleased) fun hrush htimely => ?_
        · rw [roleAt_of_slot hslot]
          exact nofun
        · rw [hg', hfetch, h.asks.1]
          rfl
        · obtain ⟨hexchange, -⟩ := htimely.first_exchange hrush h hslot hbegins hdue
          exact ⟨hexchange, by rw [Rush.arrival, ← hexchange, harrival]⟩
      · cases hpaused

theorem Gathering.fetcher_turn (h : Gathering rush asked? g t) {wait : Wait} {since : Nat}
    {phase : (wire rush.peer).Phase} {instant : Instant} {reply : Reply} {w : World}
    (hslot : t.slots[i]? = some (.waiting (.fetching phase) wait since))
    (hdue : ∀ timer, wait.timer = some timer → timer ≤ t.world.now)
    (hresume : (wire rush.peer).resume { ticket := i } phase t.world = (.done reply, w))
    (hattentive : Attentive (wire rush.peer) rush.place rush.callers g'
      (t.turned i (job (wire rush.peer) rush.place instant { ticket := i })
        (.after t.turn (finish rush.place reply w))
        (finish rush.place reply w : Stretch (Phase (wire rush.peer).Phase) Result).2)) :
    Comes rush asked? i t (t.turned i (job (wire rush.peer) rush.place instant { ticket := i })
      (.after t.turn (finish rush.place reply w))
      (finish rush.place reply w : Stretch (Phase (wire rush.peer).Phase) Result).2) := by
  obtain ⟨exchange, due, rfl, rfl, rfl, harrival⟩ := h.present hslot
  obtain ⟨⟨queue, hgrant⟩, hsent⟩ := h.asks
  have hqueue : queue = g.queue := by rw [hgrant]
  obtain ⟨hdone, rfl⟩ := Prod.mk.inj hresume
  obtain rfl : rush.replyTo exchange = reply := Progress.done.inj hdone
  refine @Comes.lands rush _ i t _ exchange (h.lands hattentive hslot ?_ Nat.zero_lt_one hqueue.symm
    ?_ rfl ?_ hsent rfl h.agenda h.released) fun hrush htimely => ?_
  · rw [roleAt_of_slot hslot]
    exact nofun
  · rw [h.grant, ← hgrant]
  · rintro _ ⟨⟩
    rfl
  · obtain ⟨rfl, hbegan, hle⟩ := htimely.asked exchange rfl
    exact ⟨rfl, arrived harrival hbegan (hdue due rfl) hle⟩

theorem Gathering.phase_turn (h : Gathering rush asked? g t)
    (hrest : AtRest rush.place rush.grant rush.world) {instant : Instant} {wait : Wait}
    {since : Nat} {phase : Phase (wire rush.peer).Phase}
    (hslot : t.slots[i]? = some (.waiting phase wait since))
    (hcalled : i ∈ t.line ∨ ∃ a, alarm? i (job (wire rush.peer) rush.place instant { ticket := i })
      (.waiting phase wait since : Slot (Phase (wire rush.peer).Phase) Result) = some a ∧
        a.instant ≤ t.world.now)
    {exchange? : Option Exchange} {reply? : Option Reply}
    {stretch : Stretch (Phase (wire rush.peer).Phase) Result}
    (hattentive : Attentive (wire rush.peer) rush.place rush.callers g'
      (t.turned i (job (wire rush.peer) rush.place instant { ticket := i })
        (.after t.turn stretch) stretch.2))
    (hturn : Turn (wire rush.peer) rush.place { ticket := i } t.world g (some phase) exchange?
      reply? stretch) :
    Comes rush asked? i t (t.turned i (job (wire rush.peer) rush.place instant { ticket := i })
      (.after t.turn stretch) stretch.2) := by
  have hpresent := h.present hslot
  -- Only those who have yet to begin are in line.
  obtain ⟨a, halarm, hle⟩ := hcalled.resolve_left fun hline => by
    cases hslot.symm.trans (h.line hline)
  obtain ⟨timer, htimer, rfl⟩ := Option.map_eq_some_iff.mp halarm
  cases hturn with
  | serves hwants _ => exact absurd hwants hpresent.not_wants
  | sees hwants _ => exact absurd hwants hpresent.not_wants
  | asks hfetches _ => exact absurd hfetches.wants hpresent.not_wants
  | exchanges hfetches _ => exact absurd hfetches.wants hpresent.not_wants
  | continues hresume => cases hresume
  | receives hresume =>
      refine h.fetcher_turn hslot (fun timer' htimer' => ?_) hresume hattentive
      obtain rfl := Option.some.inj (htimer.symm.trans htimer')
      exact hle
  | joins =>
      have hjoining : roleAt t i = .joining g.published := roleAt_of_slot hslot
      have hg' : (t.world.setGrant rush.place (g.join i g.published)).grants[rush.place]? =
          some (g.join i g.published) := getElem?_setGrant h.grant
      obtain rfl := Option.some.inj (hg'.symm.trans hattentive.grant)
      exact h.stays hattentive
        (h.asks.join (h.attendance.busy_of_joining hjoining) hrest.idle i) h.agenda
        h.released rfl ⟨h.asks.published, rfl⟩ hslot (Nat.lt_succ_self 2) (fun _ => nofun) nofun
  | late hne => exact absurd (h.asks.published.trans hpresent.1.symm) hne
  | hears hne => exact absurd (h.asks.published.trans hpresent.1.symm) hne
  | leaves =>
      -- nobody in the queue has set a timer
      obtain ⟨-, rfl⟩ := hpresent
      cases htimer
  | ends => exact hpresent.elim

/-- **What a turn comes to while callers gather.** -/
theorem Gathering.taken (h : Gathering rush asked? g t)
    (hrest : AtRest rush.place rush.grant rush.world)
    (htaken : Taken (wire rush.peer) rush.place rush.callers t i t') :
    Comes rush asked? i t t' := by
  obtain ⟨⟨g', hattentive⟩, -⟩ := h.toAttentive.taken rush.ticketed htaken
  cases htaken with
  | nobody hnone hline => exact absurd hnone (h.has_caller (h.line hline))
  | spent _ hslot _ => exact (h.present hslot).elim
  | @early entry since hentry hslot hearly hcalled =>
      obtain ⟨instant, hbegins, hentry'⟩ := h.begins hslot
      obtain rfl := Option.some.inj (hentry.symm.trans hentry')
      obtain rfl : g = g' := Option.some.inj (h.grant.symm.trans hattentive.grant)
      obtain rfl : since = none := by
        cases since with
        | none => rfl
        | some since =>
            have hidle := h.line (hcalled.resolve_left (Option.some_ne_none since))
            rw [hslot] at hidle
            cases hidle
      refine h.stays hattentive h.asks h.agenda h.released rfl trivial hslot (Nat.lt_succ_self 4)
        ?_ nofun
      rintro htimely _ instant' - hbegins'
      obtain rfl := Option.some.inj (hbegins.symm.trans hbegins')
      exact ⟨Int.lt_of_le_of_lt htimely.later hearly, Int.le_of_lt hearly⟩
  | @works entry slot before hentry hslot htakes hcalled =>
      obtain ⟨instant, hbegins, hentry'⟩ := h.begins hslot
      obtain rfl := Option.some.inj (hentry.symm.trans hentry')
      obtain ⟨exchange?, reply?, hturn⟩ := @turnFrom_turn (wire rush.peer) _ _ _
        { ticket := i } h.grant before
      cases htakes with
      | beginning hdue => exact h.begins_turn hrest hslot hbegins hdue hattentive hturn
      | phase => exact h.phase_turn hrest hslot hcalled hattentive hturn

/-! ## Any order -/

theorem Gathering.passTo (h : Gathering rush asked? g t) (instant : Instant) :
    Gathering rush asked? g (t.passTo instant) :=
  { h with
    toAttentive := h.toAttentive.passTo instant
    asks := by
      cases asked? with
      | none => exact h.asks
      | some exchange => exact h.asks }

theorem Sharing.passTo (h : Sharing rush exchange g t) (instant : Instant) :
    Sharing rush exchange g (t.passTo instant) :=
  { h with toAttentive := h.toAttentive.passTo instant }

/-- When no cancellation is to come, a step in which nobody takes a turn is one of the clock. -/
theorem next_passes (hagenda : t.world.agenda = []) (hnext : Next none t t') :
    ∃ instant, t' = t.passTo instant := by
  cases hnext with
  | passage _ instant => exact ⟨instant, rfl⟩
  | cancellation hc _ =>
      rw [hagenda] at hc
      cases hc

theorem gathering_first (hrest : AtRest rush.place rush.grant rush.world) :
    Gathering rush none rush.grant (rush.first ties) where
  toAttentive := hrest.attentive
  asks := ⟨rfl, rfl⟩
  agenda := by
    refine List.filterMap_eq_nil_iff.mpr fun job hjob => ?_
    obtain ⟨entry, hentry, rfl⟩ := List.mem_map.mp hjob
    obtain ⟨k, hk⟩ := List.mem_iff_getElem?.mp hentry
    rw [callers_getElem?, Option.map_eq_some_iff] at hk
    obtain ⟨instant, -, rfl⟩ := hk
    rfl
  nodup := List.nodup_range
  line hk := ofJobs_slots_iff.mpr ⟨rfl, List.mem_range.mp hk⟩
  present := by
    intro k slot hslot
    obtain ⟨rfl, -⟩ := ofJobs_slots_iff.mp hslot
    exact trivial

/-- As long as nobody has ended, callers gather, in any order. -/
theorem gathering_of_reaches (hrest : AtRest rush.place rush.grant rush.world)
    (hreaches : Reaches (rush.first ties) t)
    (hnobody : ∀ {k : Ticket} {result : Result} {w : World},
      t.slots[k]? ≠ some (.ended result w)) :
    ∃ asked? g, Gathering rush asked? g t := by
  have hall : (∃ (k : Ticket) (result : Result) (w : World), t.slots[k]? = some (.ended result w)) ∨
      ∃ asked? g, Gathering rush asked? g t := by
    refine hreaches.invariant (I := fun t => (∃ (k : Ticket) (result : Result) (w : World),
      t.slots[k]? = some (.ended result w)) ∨ ∃ asked? g, Gathering rush asked? g t)
      (.inr ⟨_, _, gathering_first hrest⟩) ?_
    rintro label t t' (⟨k, result, w, hended⟩ | ⟨asked?, g, h⟩) hnext
    · exact .inl ⟨k, result, w, hnext.ended hended⟩
    · cases label with
      | none =>
          obtain ⟨instant, rfl⟩ := next_passes h.agenda hnext
          exact .inr ⟨asked?, g, h.passTo instant⟩
      | some i =>
          cases h.taken hrest (h.toPeopled.taken hnext) with
          | gathers h' => exact .inr ⟨_, _, h'⟩
          | lands hlands _ =>
              obtain ⟨result, w, hended, -⟩ := hlands.ended
              exact .inl ⟨i, result, w, hended⟩
          | served _ hended _ => exact .inl ⟨i, _, _, hended⟩
  rcases hall with ⟨k, result, w, hended⟩ | hgathering
  · exact absurd hended hnobody
  · exact hgathering

/-- Once all have begun they share the answer that is to come, in any order. -/
theorem sharing_of_reaches (hrest : AtRest rush.place rush.grant rush.world)
    (h : Gathering rush (some exchange) g t)
    (hbegun : ∀ {k : Ticket} {since : Option Nat}, t.slots[k]? ≠ some (.idle since))
    (hanswered : Answered (rush.replyTo exchange)) (hreaches : Reaches t t') :
    (∃ g', Gathering rush (some exchange) g' t') ∨ ∃ g', Sharing rush exchange g' t' := by
  have hall : (∃ g', Gathering rush (some exchange) g' t' ∧
      ∀ {k : Ticket} {since : Option Nat}, t'.slots[k]? ≠ some (.idle since)) ∨
      ∃ g', Sharing rush exchange g' t' := by
    refine hreaches.invariant (I := fun t => (∃ g, Gathering rush (some exchange) g t ∧
      ∀ {k : Ticket} {since : Option Nat}, t.slots[k]? ≠ some (.idle since)) ∨
      ∃ g, Sharing rush exchange g t) (.inl ⟨g, h, hbegun⟩) ?_
    rintro label t t' (⟨g, h, hbegun⟩ | ⟨g, h⟩) hnext
    · have hbegun' {k : Ticket} {since : Option Nat} : t'.slots[k]? ≠ some (.idle since) := by
        intro hidle
        obtain ⟨since', hidle'⟩ := hnext.begun hidle
        exact hbegun hidle'
      cases label with
      | none =>
          obtain ⟨instant, rfl⟩ := next_passes h.agenda hnext
          exact .inl ⟨g, h.passTo instant, hbegun⟩
      | some i =>
          cases h.taken hrest (h.toPeopled.taken hnext) with
          | gathers h' hasked _ _ =>
              obtain rfl := hasked exchange rfl
              exact .inl ⟨_, h', hbegun'⟩
          | lands hlands _ =>
              obtain rfl := hlands.asked exchange rfl
              exact .inr (hlands.shares (fun _ => hbegun) hanswered)
          | served hidle _ _ => exact absurd hidle hbegun
    · cases label with
      | none =>
          obtain ⟨instant, rfl⟩ := next_passes h.agenda hnext
          exact .inr ⟨g, h.passTo instant⟩
      | some i => exact .inr ⟨g, (h.taken (h.toPeopled.taken hnext)).1⟩
  exact hall.imp_left fun ⟨g', h', _⟩ => ⟨g', h'⟩

/-- One token request has been sent, and whoever has ended has the answer to it. -/
structure Shared (rush : Rush) (exchange : Exchange) (t : rush.Course) : Prop where
  sent : t.world.sent = rush.world.sent ++ [exchange]
  begun : (t.world.grant rush.place).begun = rush.grant.begun + 1
  results : ∀ {i : Ticket} {result : Result} {w : World}, t.slots[i]? = some (.ended result w) →
    result = share (rush.replyTo exchange)

theorem Gathering.shared (h : Gathering rush (some exchange) g t) : Shared rush exchange t where
  sent := h.asks.2
  begun := by
    obtain ⟨⟨queue, rfl⟩, -⟩ := h.asks
    rw [grant_eq h.grant]
    rfl
  results hslot := (h.present hslot).elim

theorem Sharing.shared (h : Sharing rush exchange g t) : Shared rush exchange t where
  sent := h.sent
  begun := by rw [grant_eq h.grant, h.begun]
  results hslot := h.shares hslot

/-! ## Orders that keep nobody waiting -/

theorem Attentive.mem_alarms (h : Attentive (wire rush.peer) rush.place rush.callers g t)
    {instant : Instant} {a : Alarm} (hslot : t.slots[k]? = some slot)
    (hbegins : rush.begins[k]? = some instant)
    (halarm : alarm? k (job (wire rush.peer) rush.place instant { ticket := k }) slot = some a) :
    a ∈ alarmsFrom 0 t.jobs t.slots := by
  refine mem_alarmsFrom.mpr ⟨k, _, slot, ?_, hslot, by rwa [Nat.zero_add]⟩
  rw [h.jobs, crowd_getElem?, callers_getElem?, hbegins]
  rfl

/-- As long as no token request has been made nobody has begun. -/
theorem Gathering.idle_of_unasked (h : Gathering rush none g t)
    (hrest : AtRest rush.place rush.grant rush.world) (hslot : t.slots[k]? = some slot) :
    ∃ since, slot = .idle since := by
  have hidle : ¬ g.busy = true := by
    rw [h.asks.1, hrest.idle]
    exact nofun
  have hpresent := h.present hslot
  have hrole := roleAt_of_slot hslot
  match slot with
  | .idle since => exact ⟨since, rfl⟩
  | .waiting (.fetching _) _ _ =>
      obtain ⟨_, _, hnone, -⟩ := hpresent
      cases hnone
  | .waiting (.joining seen) _ _ =>
      have hseen : seen = g.published := hpresent.1.trans h.asks.published.symm
      exact absurd (h.attendance.busy_of_joining (hseen ▸ hrole)) hidle
  | .waiting (.awaiting seen) _ _ =>
      rcases h.attendance.waiting hrole with hlt | hqueued
      · rw [hpresent.1, h.asks.published] at hlt
        exact absurd hlt (Nat.lt_irrefl _)
      · exact absurd (h.attendance.queue _ hqueued).1 hidle
  | .waiting (.returning _) _ _ => exact hpresent.elim
  | .ended _ _ => exact hpresent.elim

/-- While a token request is under way the timer of the caller that made it is set to the answer. -/
theorem Gathering.fetcher_timer (h : Gathering rush (some exchange) g t)
    (hrest : AtRest rush.place rush.grant rush.world) {instant : Instant}
    (hrests : t.RestsUntil instant) : instant ≤ rush.arrivalOf exchange := by
  obtain ⟨p, hp⟩ := h.attendance.busy.mp ((h.asks.some_iff hrest.idle).mpr ⟨_, rfl⟩)
  obtain ⟨phase, wait, since, hslot⟩ := slot_of_fetching hp
  obtain ⟨exchange', due, hsome, rfl, rfl, harrival⟩ := h.present hslot
  obtain rfl := Option.some.inj hsome
  obtain ⟨begins, hbegins, -⟩ := h.begins hslot
  have hdue := hrests.alarms _ (h.mem_alarms hslot hbegins rfl)
  exact harrival ▸ Int.le_trans hdue (Int.le_max_right _ _)

/-- Before a token request has been made the first of the callers has set a timer. -/
theorem Gathering.first_timer (h : Gathering rush none g t) (hrush : rush.Overlaps)
    {instant : Instant} (hrests : t.RestsUntil instant) : instant ≤ rush.began := by
  obtain ⟨first, begins, hbegins, hbegan, -⟩ := hrush.during
  have hlt : first < t.slots.length := by
    rw [h.length, callers_length]
    exact (List.getElem?_eq_some_iff.mp hbegins).1
  have hslot := List.getElem?_eq_getElem hlt
  obtain ⟨since, hidle⟩ := h.idle_of_unasked hrush.rest hslot
  rw [hidle] at hslot
  cases since with
  | none =>
      cases h.attended hslot with
      | first hin =>
          rw [hrests.line] at hin
          cases hin
  | some since =>
      rw [← hbegan]
      exact Int.le_trans (hrests.alarms _ (h.mem_alarms hslot hbegins rfl)) (Int.le_max_right _ _)

theorem Timely.passTo (hrush : rush.Overlaps) (htimely : Timely rush asked? t)
    (h : Gathering rush asked? g t) {instant : Instant}
    (hrests : t.world.now < (t.passTo instant).world.now →
      t.RestsUntil (t.passTo instant).world.now) :
    Timely rush asked? (t.passTo instant) := by
  have hle : t.world.now ≤ (t.passTo instant).world.now := Int.le_max_left _ _
  rcases Int.lt_or_eq_of_le hle with hlt | heq
  · have hrests := hrests hlt
    refine ⟨Int.le_trans htimely.later hle, fun hline => absurd hrests.line hline, ?_, ?_, ?_, ?_⟩
    · intro k since begins hslot hbegins
      exact ⟨(htimely.timers hslot hbegins).1, hrests.alarms _ (h.mem_alarms hslot hbegins rfl)⟩
    · intro k seen wait since timer hslot htimer
      exact Int.le_trans (htimely.brief hslot htimer) hle
    · rintro rfl
      exact h.first_timer hrush hrests
    · rintro exchange rfl
      obtain ⟨rfl, hbegan, -⟩ := htimely.asked exchange rfl
      exact ⟨rfl, Int.le_trans hbegan hle, h.fetcher_timer hrush.rest hrests⟩
  · rw [show t.passTo instant = t from passTo_of_le (heq ▸ Int.le_max_right _ _)]
    exact htimely

/-- As long as anybody is to hear of the answer the clock stands still. -/
theorem Punctual.passTo (hpunctual : Punctual rush t) (h : Sharing rush exchange g t)
    {instant : Instant}
    (hrests : t.world.now < (t.passTo instant).world.now →
      t.RestsUntil (t.passTo instant).world.now) :
    Punctual rush (t.passTo instant) := by
  have hle : t.world.now ≤ (t.passTo instant).world.now := Int.le_max_left _ _
  refine ⟨fun hslot htimer => Int.le_trans (hpunctual.due hslot htimer) hle, ?_, hpunctual.ended⟩
  rcases Int.lt_or_eq_of_le hle with hlt | heq
  · left
    have hrests := hrests hlt
    intro slot hin
    obtain ⟨k, hslot⟩ := List.mem_iff_getElem?.mp hin
    obtain ⟨begins, hbegins, -⟩ := h.begins hslot
    cases h.attended hslot with
    | first => exact (h.shares hslot).elim
    | early => exact (h.shares hslot).elim
    | called hcalled =>
        rw [hrests.line] at hcalled
        cases hcalled
    | brief =>
        have hdue := hrests.alarms _ (h.mem_alarms hslot hbegins rfl)
        exact absurd (Int.le_trans hdue (hpunctual.due hslot rfl)) (Int.not_le.mpr hlt)
    | exchange => exact (h.shares hslot).elim
    | queued hqueued =>
        have hbusy := (h.attendance.queue _ hqueued).1
        rw [h.idle] at hbusy
        cases hbusy
    | ended => rfl
  · rw [← heq]
    exact hpunctual.now

/-- Where a run stands: callers gather, or the answer is there. -/
inductive Stage (rush : Rush) (t : rush.Course) : Prop
  | gathering {asked? : Option Exchange} {g : Grant} : Gathering rush asked? g t →
      Timely rush asked? t → Stage rush t
  | sharing {g : Grant} : Sharing rush rush.exchange g t → Punctual rush t → Stage rush t

theorem Stage.first (hrush : rush.Overlaps) : Stage rush (rush.first ties) := by
  refine .gathering (gathering_first hrush.rest) ⟨Int.le_refl _, fun _ => rfl, ?_, ?_, ?_, nofun⟩
  · intro k since instant hslot
    cases (ofJobs_slots_iff.mp hslot).1
  · intro k seen wait since instant hslot
    cases (ofJobs_slots_iff.mp hslot).1
  · intro _
    obtain ⟨first, instant, -, hbegan, -⟩ := hrush.during
    exact hbegan ▸ Int.le_max_left _ _

theorem Stage.pass (hrush : rush.Overlaps) (h : Stage rush t) (hprompt : Prompt none t t') :
    Stage rush t' ∧ turnsLeft t' = turnsLeft t := by
  have hagenda : t.world.agenda = [] := by
    cases h with
    | gathering h _ => exact h.agenda
    | sharing h _ => exact h.agenda
  obtain ⟨instant, rfl⟩ := next_passes hagenda hprompt.next
  refine ⟨?_, rfl⟩
  cases h with
  | gathering h htimely =>
      exact .gathering (h.passTo instant) (htimely.passTo hrush h (hprompt.rests rfl))
  | sharing h hpunctual =>
      exact .sharing (h.passTo instant) (hpunctual.passTo h (hprompt.rests rfl))

/-- When the answer comes all others have begun. -/
theorem Timely.othersHere (hrush : rush.Overlaps) (htimely : Timely rush asked? t)
    (h : Gathering rush asked? g t) (hslot : t.slots[i]? = some slot)
    (hnow : t.world.now = rush.arrival) : OthersHere i t := by
  intro k since hne hidle
  obtain ⟨instant, hbegins, -⟩ := h.begins hidle
  obtain ⟨instant', hbegins', -⟩ := h.begins hslot
  have hle := htimely.le_starts h hidle hbegins
  rw [hnow] at hle
  exact absurd (hrush.lt_arrival hbegins hbegins' hne) (Int.not_lt.mpr hle)

theorem Lands.stage (hrush : rush.Overlaps) (htimely : Timely rush asked? t)
    (h : Gathering rush asked? g t) (hlands : Lands rush asked? rush.exchange i t t')
    (hnow : t.world.now = rush.arrival) (hslot : t.slots[i]? = some slot) : Stage rush t' := by
  obtain ⟨g', hsharing⟩ := hlands.shares (htimely.othersHere hrush h hslot hnow) hrush.answered
  obtain ⟨result, w, hended, hwhen⟩ := hlands.ended
  refine .sharing hsharing ⟨?_, .inr (hlands.now.trans hnow), ?_⟩
  · intro k phase wait since instant hk htimer
    rw [hlands.now]
    by_cases hne : k = i
    · subst hne
      rw [hended] at hk
      cases hk
    · have hold := hlands.others hne ▸ hk
      have hshares := hsharing.shares hk
      have hpresent := h.present hold
      cases phase with
      | fetching reply => exact hshares.elim
      | joining seen => exact htimely.brief hold htimer
      | awaiting seen =>
          obtain ⟨-, rfl⟩ := hpresent
          cases htimer
      | returning ending => exact hpresent.elim
  · intro k result' w' hk
    by_cases hne : k = i
    · subst hne
      rw [hended] at hk
      cases hk
      exact hwhen.trans hnow
    · have hold : t.slots[k]? = some (.ended result' w') := hlands.others hne ▸ hk
      exact (h.present hold).elim

/-- A turn keeps the stage, or goes on to the next. -/
theorem Stage.turn (hrush : rush.Overlaps) (h : Stage rush t) (hprompt : Prompt (some i) t t') :
    Stage rush t' ∧ turnsLeft t' < turnsLeft t := by
  cases h with
  | sharing h hpunctual =>
      obtain ⟨h', hpunctual', hlt⟩ := h.taken (h.toPeopled.taken hprompt.next)
      exact ⟨.sharing h' (hpunctual' hpunctual), hlt⟩
  | gathering h htimely =>
      cases h.taken hrush.rest (h.toPeopled.taken hprompt.next) with
      | gathers h' _ htimely' hlt => exact ⟨.gathering h' (htimely' hrush htimely), hlt⟩
      | lands hlands harrives =>
          obtain ⟨rfl, hnow⟩ := harrives hrush htimely
          obtain ⟨result, w, hended, -⟩ := hlands.ended
          have hlt : i < t.slots.length :=
            hprompt.next.slots_length ▸ (List.getElem?_eq_some_iff.mp hended).1
          exact ⟨hlands.stage hrush htimely h hnow (List.getElem?_eq_getElem hlt), hlands.fewer⟩
      | served _ _ hnever => exact (hnever hrush htimely).elim

/-! ## The theorem -/

/-- Everyone has ended at the instant of the answer, with what it was, and it was the
answer to the one request that was sent. -/
structure Rush.Shares (rush : Rush) (t : rush.Course) : Prop where
  ended : ∀ slot ∈ t.slots, ∃ w, slot = .ended rush.result w ∧ w.now = rush.arrival
  sent : t.world.sent = rush.world.sent ++ [rush.exchange]
  begun : (t.world.grant rush.place).begun = rush.grant.begun + 1

/-- In every stage at most one request has been sent, and who has ended has the answer. -/
theorem Stage.sound (h : Stage rush t) :
    (t.world.sent = rush.world.sent ∧ (t.world.grant rush.place).begun = rush.grant.begun ∨
      t.world.sent = rush.world.sent ++ [rush.exchange] ∧
        (t.world.grant rush.place).begun = rush.grant.begun + 1) ∧
    ∀ {i : Ticket} {result : Result} {w : World}, t.slots[i]? = some (.ended result w) →
      result = rush.result ∧ w.now = rush.arrival := by
  cases h with
  | @gathering asked? g h htimely =>
      refine ⟨?_, fun hslot => (h.present hslot).elim⟩
      cases asked? with
      | none => exact .inl ⟨h.asks.2, by rw [grant_eq h.grant, h.asks.1]⟩
      | some exchange =>
          obtain ⟨rfl, -⟩ := htimely.asked exchange rfl
          exact .inr ⟨h.shared.sent, h.shared.begun⟩
  | sharing h hpunctual =>
      exact ⟨.inr ⟨h.shared.sent, h.shared.begun⟩,
        fun hslot => ⟨h.shares hslot, hpunctual.ended hslot⟩⟩

/-- When all have ended they share the answer. -/
theorem Stage.shares (hrush : rush.Overlaps) (h : Stage rush t) (hover : t.Over) :
    rush.Shares t := by
  cases h with
  | gathering h htimely =>
      obtain ⟨first, instant, hbegins, -⟩ := hrush.during
      have hlt : first < t.slots.length := by
        rw [h.length, callers_length]
        exact (List.getElem?_eq_some_iff.mp hbegins).1
      have hslot := List.getElem?_eq_getElem hlt
      have hended := hover _ (List.mem_of_getElem? hslot)
      have hpresent := h.present hslot
      generalize t.slots[first] = slot at hended hpresent
      cases slot with
      | ended result w => exact hpresent.elim
      | idle since => cases hended
      | waiting phase wait since => cases hended
  | sharing h hpunctual =>
      refine ⟨fun slot hin => ?_, h.shared.sent, h.shared.begun⟩
      obtain ⟨k, hslot⟩ := List.mem_iff_getElem?.mp hin
      have hended := hover slot hin
      cases slot with
      | ended result w =>
          obtain rfl : result = rush.result := h.shares hslot
          exact ⟨w, rfl, hpunctual.ended hslot⟩
      | idle since => cases hended
      | waiting phase wait since => cases hended

theorem turnsLeft_first_le (rush : Rush) (ties : Ties) :
    turnsLeft (rush.first ties) ≤ 5 * rush.begins.length := by
  show (((crowd (wire rush.peer) rush.place rush.callers).map fun _ =>
    (Slot.idle none : Slot (Phase (wire rush.peer).Phase) Result)).map turns).sum ≤ _
  rw [List.map_map]
  show ((crowd (wire rush.peer) rush.place rush.callers).map fun _ => 5).sum ≤ _
  rw [List.map_const', List.sum_replicate_nat, crowd, List.length_map, callers_length]
  exact Nat.le_of_eq (Nat.mul_comm ..)

/-- **One fetch serves all.**  Let callers overlap on a grant without a fresh token, and
take turns in any order that keeps nobody waiting.  Then at most one request is ever sent
and one fetch begun; whoever has ended did so at the instant of the answer, with what the
answer was: all may go on, or all have the same failure.  There are no more than five turns
for each caller, and when nobody has a turn to come, all have ended.  The run that
`together` takes is such an order, whichever of two timers of one instant goes off first.  How
long the token may be used plays no part.

In any order at all, and however long callers are kept waiting between two looks at the grant:
once all have begun, and the one that fetches is still to have its answer, no other request is
sent, and whoever ends has that answer. -/
theorem rush_shares_one_fetch (rush : Rush) (h : rush.Overlaps) (ties : Ties) :
    (∀ {turns : Nat} {t : rush.Course}, Promptly (rush.first ties) turns t →
      turns ≤ 5 * rush.begins.length ∧
      (t.world.sent = rush.world.sent ∧ (t.world.grant rush.place).begun = rush.grant.begun ∨
        t.world.sent = rush.world.sent ++ [rush.exchange] ∧
          (t.world.grant rush.place).begun = rush.grant.begun + 1) ∧
      (∀ {i : Ticket} {result : Result} {w : World}, t.slots[i]? = some (.ended result w) →
        result = rush.result ∧ w.now = rush.arrival) ∧
      (t.line = [] → alarmsFrom 0 t.jobs t.slots = [] → rush.Shares t)) ∧
    (∀ {t t' : rush.Course} {p : Ticket} {reply : Reply} {wait : Wait} {since : Nat},
      Reaches (rush.first ties) t →
      (∀ slot ∈ t.slots, ∃ phase wait since, slot = .waiting phase wait since) →
      t.slots[p]? = some (.waiting (.fetching reply) wait since) → Answered reply →
      Reaches t t' →
      (∃ exchange, rush.replyTo exchange = reply ∧ Shared rush exchange t') ∧
      (t'.line = [] → alarmsFrom 0 t'.jobs t'.slots = [] → t'.Over)) ∧
    ∃ results world', together (wire rush.peer) rush.place rush.callers rush.world ties =
        some (results, world') ∧
      results.length = rush.begins.length ∧
      (∀ entry ∈ results, entry.1 = rush.result ∧ entry.2.now = rush.arrival) ∧
      world'.sent = rush.world.sent ++ [rush.exchange] ∧
      (world'.grant rush.place).begun = rush.grant.begun + 1 := by
  have hfirst : Attentive (wire rush.peer) rush.place rush.callers rush.grant (rush.first ties) :=
    h.rest.attentive
  have hstage {turns : Nat} {t : rush.Course} (hprompt : Promptly (rush.first ties) turns t) :
      Stage rush t ∧ turns + turnsLeft t ≤ turnsLeft (rush.first ties) :=
    hprompt.invariant (fun hstage => Stage.pass h hstage) (fun hstage => Stage.turn h hstage)
      (Stage.first h)
  refine ⟨?_, ?_, ?_⟩
  · intro turns t hprompt
    obtain ⟨hstage, hturns⟩ := hstage hprompt
    obtain ⟨hsent, hended⟩ := hstage.sound
    refine ⟨Nat.le_trans (Nat.le_add_right ..) (Nat.le_trans hturns (turnsLeft_first_le rush ties)),
      hsent, hended, fun hline halarms => hstage.shares h ?_⟩
    cases hstage with
    | gathering h _ => exact h.isOver hline halarms
    | sharing h _ => exact h.isOver hline halarms
  · intro t t' p reply wait since hreaches hwaiting hslot hanswered hreaches'
    obtain ⟨asked?, g, hgathering⟩ := gathering_of_reaches h.rest hreaches fun hended => by
      obtain ⟨_, _, _, heq⟩ := hwaiting _ (List.mem_of_getElem? hended)
      cases heq
    obtain ⟨exchange, due, rfl, rfl, -⟩ := hgathering.present hslot
    have hshared := sharing_of_reaches h.rest hgathering (fun hidle => by
      obtain ⟨_, _, _, heq⟩ := hwaiting _ (List.mem_of_getElem? hidle)
      cases heq) hanswered hreaches'
    refine ⟨⟨exchange, rfl, ?_⟩, ?_⟩
    · rcases hshared with ⟨g', h'⟩ | ⟨g', h'⟩
      · exact h'.shared
      · exact h'.shared
    · obtain ⟨g', hattentive⟩ := hfirst.reaches rush.ticketed (hreaches.trans hreaches')
      exact hattentive.isOver
  · obtain ⟨fuel, t, results, g', ht, -, hover, hattentive, hresults, hlength, htogether⟩ :=
      h.rest.ends rush.peer rush.ticketed ties
    obtain ⟨turns, hprompt⟩ := ht ▸ run_promptly fuel (@Promptly.refl _ _ (rush.first ties))
    have hshares := (hstage hprompt).1.shares h hover
    obtain ⟨results', hresults', -, hall⟩ := @results?_of_ended _ _ t
      (fun result w => result = rush.result ∧ w.now = rush.arrival) fun slot hslot => by
        obtain ⟨w, rfl, hnow⟩ := hshares.ended slot hslot
        exact ⟨_, w, rfl, rfl, hnow⟩
    obtain rfl := Option.some.inj (hresults.symm.trans hresults')
    exact ⟨results, _, htogether, hlength.trans (callers_length rush), hall, hshares.sent,
      hshares.begun⟩

end

/-- Three callers, the third before the second, and a token that is never fresh. -/
def threeCallers : Rush where
  peer := fun _ _ => .ok { delay := 10, reply := .ok {
    body := utf8 "\x7b\"access_token\":\"t\",\"expires_in\":1\x7d" } }
  place := 0
  begins := [0, 5, 3]
  world := { grants := [{ credentials := { tokenUrl := {} } }] }
  began := 0

theorem three_callers_share_one_fetch :
    ∃ results world', together (wire threeCallers.peer) 0 threeCallers.callers
        threeCallers.world = some (results, world') ∧
      results.length = 3 ∧ (∀ entry ∈ results, entry.1 = .ok () ∧ entry.2.now = 10) ∧
      world'.sent = [threeCallers.exchange] ∧ (world'.grant 0).begun = 1 := by
  have harrival : threeCallers.arrival = 10 := by decide +kernel
  have hresult : threeCallers.result = .ok () := by rfl
  have hoverlaps : threeCallers.Overlaps := by
    refine ⟨⟨rfl, rfl, rfl, rfl⟩, by decide, ⟨0, 0, rfl, rfl, ?_⟩, ?_⟩
    · intro other instant hother hne
      rw [harrival]
      match other with
      | 0 => exact absurd rfl hne
      | 1 =>
          obtain rfl := Option.some.inj hother
          decide
      | 2 =>
          obtain rfl := Option.some.inj hother
          decide
    · intro failure hreply
      cases hreply
  have hshared := (rush_shares_one_fetch threeCallers hoverlaps .firstSet).2.2
  rw [harrival, hresult] at hshared
  exact hshared

end Acquire

end BearerAuth
