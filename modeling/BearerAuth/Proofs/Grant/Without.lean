import BearerAuth.Grant.Callers
import BearerAuth.Proofs.Grant.Turn
import BearerAuth.Proofs.Timeline.Shift
import BearerAuth.Transport.Wire

/-!
# The world without one caller

`World.without` takes one caller out of a world: out of the queue of its grant, out of those
still to be released and those still to be canceled; the tickets behind it move back.  What
another caller does in a turn is the same with and without it, and leaves worlds that again
are the same but for it: `without` is pushed through everything that a turn consists of, up
to `start_without` and `resume_without`.  What the caller itself does to the queue is gone
without it, so as long as it makes no token request it leaves no trace (`Turn.traceless`).
-/

namespace BearerAuth

open Transport Timeline

/-! ## Taking a caller out -/

/-- A place in the queue, when it is not that of the caller. -/
def Queued.without (p : Ticket) (queued : Queued) : Option Queued :=
  (unshift p queued.ticket).map fun ticket => { queued with ticket }

def Cancellation.without (p : Ticket) (c : Cancellation) : Option Cancellation :=
  (unshift p c.ticket).map fun ticket => { c with ticket }

def Grant.without (p : Ticket) (g : Grant) : Grant :=
  { g with queue := g.queue.filterMap (Queued.without p) }

/-- A world without a caller of the grant at a place. -/
def World.without (place : Nat) (p : Ticket) (w : World) : World :=
  { w with
    grants := w.grants.modify place (Grant.without p)
    released := lineWithout p w.released
    agenda := w.agenda.filterMap (Cancellation.without p) }

/-- A stretch of work that leaves a world without a caller. -/
def Stretch.without {φ ρ : Type} (place : Nat) (p : Ticket) (stretch : Stretch φ ρ) :
    Stretch φ ρ :=
  (stretch.1, stretch.2.without place p)

def Caller.at (caller : Caller) (ticket : Ticket) : Caller := { caller with ticket }

section

variable {place : Nat} {p k : Ticket} {w : World} {g : Grant} {caller : Caller}

/-! ## Grants -/

theorem Queued.without_eq_some {queued queued' : Queued} :
    queued.without p = some queued' ↔
      queued.ticket = shift p queued'.ticket ∧ queued.seen = queued'.seen := by
  rw [Queued.without, Option.map_eq_some_iff]
  constructor
  · rintro ⟨ticket, hticket, rfl⟩
    exact ⟨unshift_eq_some.mp hticket, rfl⟩
  · rintro ⟨hticket, hseen⟩
    refine ⟨queued'.ticket, unshift_eq_some.mpr hticket, ?_⟩
    rw [hseen]

theorem Cancellation.without_eq_some {c c' : Cancellation} :
    c.without p = some c' ↔ c.ticket = shift p c'.ticket ∧ c.instant = c'.instant := by
  rw [Cancellation.without, Option.map_eq_some_iff]
  constructor
  · rintro ⟨ticket, hticket, rfl⟩
    exact ⟨unshift_eq_some.mp hticket, rfl⟩
  · rintro ⟨hticket, hinstant⟩
    refine ⟨c'.ticket, unshift_eq_some.mpr hticket, ?_⟩
    rw [hinstant]

theorem Cancellation.without_self {c : Cancellation} (h : c.ticket = p) : c.without p = none := by
  rw [Cancellation.without, h, unshift_self]
  rfl

theorem join_without (g : Grant) (p k : Ticket) (seen : Nat) :
    (g.without p).join k seen = (g.join (shift p k) seen).without p := by
  simp [Grant.join, Grant.without, Queued.without, List.filterMap_append]

theorem join_self_without (g : Grant) (p : Ticket) (seen : Nat) :
    (g.join p seen).without p = g.without p := by
  simp [Grant.join, Grant.without, Queued.without, List.filterMap_append]

theorem leave_without (g : Grant) (p k : Ticket) :
    (g.without p).leave k = (g.leave (shift p k)).without p := by
  have hkept : (g.queue.filter fun queued => queued.ticket != shift p k).filterMap
      (Queued.without p) =
        (g.queue.filterMap (Queued.without p)).filter fun queued => queued.ticket != k := by
    refine filterMap_filter ?_ g.queue
    intro queued queued' hqueued
    obtain ⟨hticket, -⟩ := Queued.without_eq_some.mp hqueued
    rw [hticket, Bool.eq_iff_iff, bne_iff_ne, bne_iff_ne]
    constructor
    · intro hne heq
      exact hne (congrArg (shift p) heq)
    · intro hne heq
      exact hne (shift_inj heq)
  simp only [Grant.leave, Grant.without, hkept]

theorem leave_self_without (g : Grant) (p : Ticket) : (g.leave p).without p = g.without p := by
  have hkept : (g.queue.filter fun queued => queued.ticket != p).filterMap (Queued.without p) =
      g.queue.filterMap (Queued.without p) := by
    refine filterMap_filter_of_none ?_ g.queue
    intro queued hself
    rw [bne_eq_false_iff_eq] at hself
    rw [Queued.without, hself, unshift_self]
    rfl
  simp only [Grant.leave, Grant.without, hkept]

theorem publish_grant_without (now : Instant) (outcome : Except Failure IssuedToken) :
    (g.without p).publish now outcome = (g.publish now outcome).without p := by
  cases outcome <;> rfl

theorem released_without : (g.without p).released = lineWithout p g.released := by
  have hticket (queued : Queued) :
      (queued.without p).map Queued.ticket = unshift p queued.ticket := by
    rw [Queued.without]
    cases unshift p queued.ticket with
    | none => rfl
    | some ticket => rfl
  simp only [Grant.released, Grant.without, lineWithout, List.map_filterMap, hticket,
    List.filterMap_map]
  rfl

/-! ## Worlds -/

@[simp] theorem without_now : (w.without place p).now = w.now := rfl

@[simp] theorem without_sent : (w.without place p).sent = w.sent := rfl

theorem grant_without (w : World) (place : Nat) (p : Ticket) :
    (w.without place p).grant place = (w.grant place).without p := by
  simp only [World.grant, World.without, List.getElem?_modify]
  cases w.grants[place]? with
  | none => rfl
  | some g => simp

theorem headers_without (w : World) (place : Nat) (p : Ticket) :
    ((w.without place p).grant place).headers = (w.grant place).headers := by
  rw [grant_without]
  rfl

theorem setGrant_without (w : World) (place : Nat) (p : Ticket) (g : Grant) :
    (w.without place p).setGrant place (g.without p) = (w.setGrant place g).without place p := by
  have hset : (w.grants.modify place (Grant.without p)).set place (g.without p) =
      (w.grants.set place g).modify place (Grant.without p) := by
    refine List.ext_getElem? fun k => ?_
    rw [List.getElem?_set, List.getElem?_modify, List.getElem?_modify, List.getElem?_set,
      List.length_modify]
    by_cases heq : place = k
    · simp only [heq, if_true]
      split <;> rfl
    · simp [heq]
  simp only [World.setGrant, World.without, hset]

theorem canceled_without (w : World) (caller : Caller) (p k : Ticket) :
    (w.without place p).canceled (caller.at k) = w.canceled (caller.at (shift p k)) := by
  have hany : ((w.agenda.filterMap (Cancellation.without p)).any fun c => c.ticket == k) =
      w.agenda.any fun c => c.ticket == shift p k := by
    rw [Bool.eq_iff_iff, List.any_eq_true, List.any_eq_true]
    constructor
    · rintro ⟨c, hc, hk⟩
      obtain ⟨c', hc', hwithout⟩ := List.mem_filterMap.mp hc
      obtain ⟨hticket, -⟩ := Cancellation.without_eq_some.mp hwithout
      rw [eq_of_beq hk] at hticket
      exact ⟨c', hc', beq_iff_eq.mpr hticket⟩
    · rintro ⟨c, hc, hk⟩
      refine ⟨⟨c.instant, k⟩, List.mem_filterMap.mpr ⟨c, hc, ?_⟩, beq_self_eq_true k⟩
      exact Cancellation.without_eq_some.mpr ⟨eq_of_beq hk, rfl⟩
  show (caller.canceled w.now &&
      !((w.agenda.filterMap (Cancellation.without p)).any fun c => c.ticket == k)) = _
  rw [hany]
  rfl

/-! ## The wire -/

theorem andThen_without {φ ψ ρ τ : Type} (stretch : Stretch φ ρ) (within : φ → ψ)
    {next next' : ρ → World → Stretch ψ τ}
    (h : ∀ result w, next result (w.without place p) = (next' result w).without place p) :
    (stretch.without place p).andThen within next =
      (stretch.andThen within next').without place p := by
  obtain ⟨progress, w⟩ := stretch
  cases progress with
  | done result => exact h result w
  | paused phase wait => rfl

theorem deliver_without (caller : Caller) (delivery : Delivery) (w : World) :
    Wire.deliver (caller.at k) delivery (w.without place p) =
      (Wire.deliver (caller.at (shift p k)) delivery w).without place p := by
  rw [Wire.deliver, Wire.deliver, canceled_without]
  have hexpired : (caller.at k).expired (w.without place p).now =
      (caller.at (shift p k)).expired w.now := rfl
  rw [hexpired]
  split
  · rfl
  · split
    · rfl
    · split
      · rfl
      · rfl

theorem wire_start_without (peer : Peer) (caller : Caller) (url : Url) (request : Request)
    (w : World) :
    (wire peer).start (caller.at k) url request (w.without place p) =
      ((wire peer).start (caller.at (shift p k)) url request w).without place p := by
  simp only [wire, without_now, without_sent]
  cases peer w.sent ⟨w.now, url, request⟩ with
  | error failure => rfl
  | ok delivery =>
      exact deliver_without caller delivery
        { w with sent := w.sent ++ [⟨w.now, url, request⟩] }

theorem wire_resume_without (peer : Peer) (caller : Caller) (reply : Reply) (w : World) :
    (wire peer).resume (caller.at k) reply (w.without place p) =
      ((wire peer).resume (caller.at (shift p k)) reply w).without place p := by
  simp only [wire, Wire.arrive, canceled_without]
  rfl

/-! ## Acquiring a token -/

namespace Acquire

variable {peer : Peer}

theorem publish_without (outcome : Except Failure IssuedToken) (w : World) :
    publish place outcome (w.without place p) = (publish place outcome w).without place p := by
  simp only [publish, grant_without, without_now]
  have hcredentials : ((w.grant place).without p).credentials = (w.grant place).credentials := rfl
  rw [hcredentials, publish_grant_without, released_without]
  generalize describe (w.grant place).credentials outcome = entry
  have hnote : (w.without place p).note entry.1 entry.2 =
      (w.note entry.1 entry.2).without place p := rfl
  simp only [hnote, setGrant_without]
  simp only [World.without, lineWithout_append]

theorem finish_without {φ : Type} (reply : Reply) (w : World) :
    (finish place reply (w.without place p) : Stretch (Phase φ) Result) =
      (finish place reply w).without place p := by
  simp only [finish, publish_without]
  rfl

theorem fetch_without (caller : Caller) (w : World) :
    fetch (wire peer) place (caller.at k) (w.without place p) =
      (fetch (wire peer) place (caller.at (shift p k)) w).without place p := by
  simp only [fetch, grant_without]
  have hbegin : ((w.grant place).without p).beginFetch = (w.grant place).beginFetch.without p :=
    rfl
  have hcredentials : ((w.grant place).without p).credentials = (w.grant place).credentials := rfl
  rw [hbegin, hcredentials, setGrant_without, wire_start_without]
  exact andThen_without _ _ finish_without

theorem await_without {φ : Type} (caller : Caller) (seen : Nat) (w : World) :
    (await place (caller.at k) seen (w.without place p) : Stretch (Phase φ) Result) =
      (await place (caller.at (shift p k)) seen w).without place p := by
  simp only [await, grant_without]
  have hpublished : ((w.grant place).without p).published = (w.grant place).published := rfl
  have hticket : (caller.at k).ticket = k := rfl
  have hticket' : (caller.at (shift p k)).ticket = shift p k := rfl
  rw [hpublished, hticket, hticket', join_without, setGrant_without]
  split
  · rfl
  · rfl

theorem conclude_without (caller : Caller) (seen : Nat) (w : World) :
    conclude place (caller.at k) seen (w.without place p) =
      ((conclude place (caller.at (shift p k)) seen w).1,
        (conclude place (caller.at (shift p k)) seen w).2.without place p) := by
  simp only [conclude, grant_without]
  have hpublished : ((w.grant place).without p).published = (w.grant place).published := rfl
  have hending : Ending.ofGrant ((w.grant place).without p) = .ofGrant (w.grant place) := rfl
  have hticket : (caller.at k).ticket = k := rfl
  have hticket' : (caller.at (shift p k)).ticket = shift p k := rfl
  rw [hpublished, hending, hticket, hticket', leave_without, setGrant_without, canceled_without]
  split
  · rfl
  · rfl

theorem start_without (caller : Caller) (w : World) :
    start (wire peer) place (caller.at k) (w.without place p) =
      (start (wire peer) place (caller.at (shift p k)) w).without place p := by
  simp only [start, grant_without]
  have hfresh : ((w.grant place).without p).isFresh (w.without place p).now =
      (w.grant place).isFresh w.now := rfl
  have hbusy : ((w.grant place).without p).busy = (w.grant place).busy := rfl
  rw [hfresh, hbusy]
  split
  · rfl
  · split
    · rfl
    · exact fetch_without caller w

theorem goOn_without (caller : Caller) (ending : Ending) (w : World) :
    goOn (wire peer) place (caller.at k) ending (w.without place p) =
      (goOn (wire peer) place (caller.at (shift p k)) ending w).without place p := by
  cases ending with
  | refreshed => rfl
  | failed failure => rfl
  | abandoned => exact start_without caller w
  | canceled => rfl
  | timedOut => rfl

theorem resume_without (caller : Caller) (phase : Phase Reply) (w : World) :
    resume (wire peer) place (caller.at k) phase (w.without place p) =
      (resume (wire peer) place (caller.at (shift p k)) phase w).without place p := by
  cases phase with
  | fetching reply =>
      simp only [resume, wire_resume_without]
      exact andThen_without _ _ finish_without
  | joining seen => exact await_without caller seen w
  | awaiting seen =>
      simp only [resume, conclude_without]
      rfl
  | returning ending => exact goOn_without caller ending w

/-! ## The caller itself -/

/-- What a change of the queue leaves that is none without a caller. -/
theorem touch_without {g' : Grant} (h : g'.without p = (w.grant place).without p) :
    (w.setGrant place g').without place p = w.without place p := by
  rw [← setGrant_without, h, setGrant_without, setGrant_grant]

/-- Without the caller a world is as before, and nobody has been released. -/
structure Traceless (place : Nat) (p : Ticket) (w w' : World) : Prop where
  without : w'.without place p = w.without place p
  released : w'.released = w.released

theorem Traceless.refl (w : World) : Traceless place p w w := ⟨rfl, rfl⟩

/-- **A caller leaves no trace** in a turn in which it makes no token request and has no reply to
one. -/
theorem Turn.traceless {base : Transport} {before : Option (Phase base.Phase)}
    {stretch : Stretch (Phase base.Phase) Result} (hg : w.grants[place]? = some g)
    (hticket : caller.ticket = p) (hphase : ∀ phase, before ≠ some (.fetching phase))
    (h : Turn base place caller w g before none none stretch) :
    Traceless place p w stretch.2 := by
  have htouched {g' : Grant} (hsame : g'.without p = g.without p) :
      Traceless place p w (w.setGrant place g') :=
    ⟨touch_without (grant_eq hg ▸ hsame), rfl⟩
  cases h with
  | serves => exact .refl w
  | sees => exact .refl w
  | continues => exact absurd rfl (hphase _)
  | joins =>
      rw [hticket]
      exact htouched (join_self_without g p _)
  | late => exact .refl w
  | hears => exact .refl w
  | leaves =>
      rw [hticket]
      exact htouched (leave_self_without g p)
  | ends => exact .refl w

theorem traceless_of_not_fetches {base : Transport} {before : Option (Phase base.Phase)}
    (hg : w.grants[place]? = some g) (hticket : caller.ticket = p)
    (hphase : ∀ phase, before ≠ some (.fetching phase)) (hnot : ¬ Fetches g w.now before) :
    Traceless place p w (turnFrom base place caller before w).2 := by
  obtain ⟨exchange?, reply?, hturn⟩ := turnFrom_turn caller hg before
  have hnone {exchange : Exchange} (hsome : exchange? = some exchange) : False :=
    hnot ((hturn.fetches_iff exchange).mpr hsome).1
  cases exchange? with
  | some exchange => exact (hnone rfl).elim
  | none =>
      cases reply? with
      | none => exact hturn.traceless hg hticket hphase
      | some reply =>
          cases (hturn.replied_iff hg reply).mpr rfl with
          | late => exact absurd rfl (hphase _)
          | atOnce hfetches => exact absurd (grant_eq hg ▸ hfetches) hnot

end Acquire

end

end BearerAuth
