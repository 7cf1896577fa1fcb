import BearerAuth.Proofs.Grant.Crowd
import Mathlib.Logic.Function.Basic

/-!
# Who fetches, and who waits

A caller stands somewhere (`Role`): away, at a fetch of its own, or on its way to the queue, in it
or back from it.  What it does in a turn is a `Deed` to the grant, seen without the transport.  A
grant and its callers know of each other (`Attendance`), and every deed keeps it so
(`Attendance.deed`).

A caller looks at the grant, and joins the queue in a later turn.  That everybody in the queue
has seen all publications so far rests on its looking again then; one that has seen a fetch
under way that is none any more has been overtaken by a publication (`Attendance.joining`).
-/

namespace BearerAuth

open Transport Timeline

namespace Acquire

/-! ## Where callers stand -/

/-- What a caller is about. -/
inductive Role where
  /-- It has not begun, or it has ended. -/
  | away
  /-- Its token request is under way. -/
  | fetching
  /-- It comes to the queue, and has seen a number of publications. -/
  | joining (seen : Nat)
  /-- It waits for an outcome, and has seen a number of publications. -/
  | awaiting (seen : Nat)
  /-- Its wait is over. -/
  | returning (ending : Ending)
  deriving DecidableEq

namespace Role

/-- A caller in a phase, or in none. -/
def of {φ : Type} : Option (Phase φ) → Role
  | none => .away
  | some (.fetching _) => .fetching
  | some (.joining seen) => .joining seen
  | some (.awaiting seen) => .awaiting seen
  | some (.returning ending) => .returning ending

/-- Whoever stands like this may come to ask for a token. -/
def Asks (role : Role) : Prop :=
  role = .away ∨ role = .returning .abandoned

/-- Neither at a fetch nor in the queue. -/
structure Loose (g : Grant) (role : Role) : Prop where
  fetching : role ≠ .fetching
  queued : role ≠ .awaiting g.published

theorem Asks.loose {role : Role} {g : Grant} (h : role.Asks) : role.Loose g := by
  rcases h with rfl | rfl
  · exact ⟨nofun, nofun⟩
  · exact ⟨nofun, nofun⟩

end Role

theorem Wants.asks {φ : Type} {before : Option (Phase φ)} (h : Wants before) :
    (Role.of before).Asks := by
  cases before with
  | none => exact .inl rfl
  | some phase =>
      cases phase with
      | fetching phase => exact h.elim
      | joining seen => exact h.elim
      | awaiting seen => exact h.elim
      | returning ending => exact .inr (congrArg Role.returning h)

/-- Where the caller with a ticket stands. -/
def roleAt {base : Transport} (t : Timeline (Phase base.Phase) Result) (i : Ticket) :
    Role :=
  .of (t.slots[i]?.bind phaseOf)

/-- The phase of work that pauses. -/
def pausedIn {φ ρ : Type} : Progress φ ρ → Option φ
  | .done _ => none
  | .paused phase _ => some phase

theorem phaseOf_after {φ : Type} (turn : Nat) (stretch : Stretch (Phase φ) Result) :
    phaseOf (Slot.after turn stretch) = pausedIn stretch.1 := by
  obtain ⟨progress, w⟩ := stretch
  cases progress <;> rfl

section

variable {base : Transport} {t t' : Timeline (Phase base.Phase) Result} {i : Ticket}
  {slot slot' : Slot (Phase base.Phase) Result}

theorem roleAt_of_slot (h : t.slots[i]? = some slot) : roleAt t i = .of (phaseOf slot) := by
  rw [roleAt, h]
  rfl

/-- Whoever is not away pauses. -/
theorem slot_of_role (h : roleAt t i ≠ .away) : ∃ phase wait since,
    t.slots[i]? = some (.waiting phase wait since) ∧ roleAt t i = .of (some phase) := by
  cases hslot : t.slots[i]? with
  | none =>
      rw [roleAt, hslot] at h
      exact absurd rfl h
  | some slot =>
      have hrole := roleAt_of_slot hslot
      cases slot with
      | idle since => exact absurd hrole h
      | ended result world => exact absurd hrole h
      | waiting phase wait since => exact ⟨phase, wait, since, rfl, hrole⟩

theorem slot_of_awaiting {seen : Nat} (h : roleAt t i = .awaiting seen) :
    ∃ wait since, t.slots[i]? = some (.waiting (.awaiting seen) wait since) := by
  obtain ⟨phase, wait, since, hslot, hrole⟩ := slot_of_role fun haway => by
    cases h.symm.trans haway
  rw [h] at hrole
  cases phase with
  | fetching phase => cases hrole
  | joining seen' => cases hrole
  | returning ending => cases hrole
  | awaiting seen' =>
      obtain rfl := Role.awaiting.inj hrole
      exact ⟨wait, since, hslot⟩

theorem slot_of_fetching (h : roleAt t i = .fetching) :
    ∃ phase wait since, t.slots[i]? = some (.waiting (.fetching phase) wait since) := by
  obtain ⟨phase, wait, since, hslot, hrole⟩ := slot_of_role fun haway => by
    cases h.symm.trans haway
  rw [h] at hrole
  cases phase with
  | fetching phase => exact ⟨phase, wait, since, hslot⟩
  | joining seen => cases hrole
  | returning ending => cases hrole
  | awaiting seen => cases hrole

theorem roleAt_ofJobs {place : Nat} {callers : List (Instant × Caller)} {world : World}
    {ties : Ties} : roleAt (ofJobs world (crowd base place callers) ties) = fun _ => .away := by
  funext i
  simp only [roleAt, ofJobs, List.getElem?_map]
  cases (crowd base place callers)[i]? <;> rfl

theorem roleAt_turned {job : Job (Phase base.Phase) Result} {w' : World}
    (hslot : t.slots[i]? = some slot) :
    roleAt (t.turned i job slot' w') = Function.update (roleAt t) i (.of (phaseOf slot')) := by
  funext k
  by_cases heq : k = i
  · subst heq
    rw [Function.update_self, roleAt_of_slot (turned_slot hslot)]
  · rw [Function.update_of_ne heq, roleAt, turned_slot_ne heq]
    rfl

theorem Idles.roleAt_eq (h : Idles t t') : roleAt t' = roleAt t := by
  funext k
  rw [roleAt, roleAt, h.phases]

end

/-! ## Deeds -/

/-- What a caller does to a grant in a turn: where it stands afterwards, the token request that it
hands over, the reply that it has to one, and the grant that it leaves. -/
inductive Deed (g : Grant) (i : Ticket) (now : Instant) (before : Role) :
    Role → Option Exchange → Option Reply → Grant → Prop
  | rests : before.Loose g → Deed g i now before .away none none g
  | sees : before.Asks → g.busy = true → Deed g i now before (.joining g.published) none none g
  | asks : before.Asks → g.busy = false →
      Deed g i now before .fetching (some (tokenExchange g now)) none g.beginFetch
  | exchanges (reply : Reply) : before.Asks → g.busy = false →
      Deed g i now before .away (some (tokenExchange g now)) (some reply)
        (g.beginFetch.publish now (IssuedToken.ofReply reply))
  | continues : before = .fetching → Deed g i now before .fetching none none g
  | receives (reply : Reply) : before = .fetching →
      Deed g i now before .away none (some reply) (g.publish now (IssuedToken.ofReply reply))
  | joins : before = .joining g.published →
      Deed g i now before (.awaiting g.published) none none (g.join i g.published)
  | late {seen : Nat} : before = .joining seen → g.published ≠ seen →
      Deed g i now before (.awaiting seen) none none g
  | hears {seen : Nat} : before = .awaiting seen → g.published ≠ seen →
      Deed g i now before (.returning (.ofGrant g)) none none g
  | leaves {ending : Ending} : before = .awaiting g.published → ending ≠ .abandoned →
      Deed g i now before (.returning ending) none none (g.leave i)

/-- Whom a deed releases: all who are in the queue, when there is a reply. -/
def releasedBy (g : Grant) : Option Reply → List Ticket
  | none => []
  | some _ => g.released

/-- The world after a deed. -/
structure Records (place : Nat) (w : World) (g' : Grant) (released : List Ticket) (w' : World) :
    Prop where
  grant : w'.grants[place]? = some g'
  now : w'.now = w.now
  agenda : w'.agenda = w.agenda
  released : w'.released = w.released ++ released

section

variable {base : Transport} {place : Nat} {caller : Caller} {w w' : World} {g g' : Grant}
  {before : Option (Phase base.Phase)} {exchange? : Option Exchange} {reply? : Option Reply}
  {stretch : Stretch (Phase base.Phase) Result}

theorem Records.same (hg : w.grants[place]? = some g) : Records place w g [] w :=
  ⟨hg, rfl, rfl, (List.append_nil _).symm⟩

theorem Records.setGrant (hg : w.grants[place]? = some g) :
    Records place w g' [] (w.setGrant place g') :=
  ⟨getElem?_setGrant hg, rfl, rfl, (List.append_nil _).symm⟩

theorem Records.outward {w₁ : World} (h : Records place w g [] w₁) (houtward : w₁.Outward w') :
    Records place w g [] w' :=
  ⟨houtward.grants ▸ h.grant, houtward.now.trans h.now, houtward.agenda.trans h.agenda,
    houtward.released.trans h.released⟩

theorem Records.publish (h : Records place w g [] w') (outcome : Outcome) :
    Records place w (g.publish w.now outcome) g.released (publish place outcome w') := by
  rw [publish_eq h.grant, h.now]
  refine ⟨getElem?_setGrant h.grant, h.now, h.agenda, ?_⟩
  show w'.released ++ g.released = w.released ++ g.released
  rw [h.released, List.append_nil]

theorem ofCaller_ne_abandoned : Ending.ofCaller w caller ≠ .abandoned := by
  rw [Ending.ofCaller]
  split
  · rintro ⟨⟩
  · rintro ⟨⟩

/-- **A turn of a caller is a deed.** -/
theorem Turn.deed (hbase : base.KeepsApart) (hg : w.grants[place]? = some g)
    (h : Turn base place caller w g before exchange? reply? stretch) :
    ∃ g', Deed g caller.ticket w.now (.of before) (.of (pausedIn stretch.1)) exchange? reply? g' ∧
      Records place w g' (releasedBy g reply?) stretch.2 := by
  have hsame : Records place w g [] w := .same hg
  have hbegun : Records place w g.beginFetch [] (w.setGrant place g.beginFetch) := .setGrant hg
  cases h with
  | serves hwants => exact ⟨g, .rests hwants.asks.loose, hsame⟩
  | sees hwants hbusy => exact ⟨g, .sees hwants.asks hbusy, hsame⟩
  | asks hfetches hstart =>
      exact ⟨_, .asks hfetches.wants.asks hfetches.idle,
        hbegun.outward (start_leaves hbase hg hstart).2⟩
  | @exchanges _ reply _ hfetches hstart =>
      exact ⟨_, .exchanges reply hfetches.wants.asks hfetches.idle,
        (hbegun.outward (start_leaves hbase hg hstart).2).publish _⟩
  | continues hresume =>
      exact ⟨g, .continues rfl, hsame.outward (resume_leaves hbase hg hresume).2⟩
  | @receives _ reply _ hresume =>
      exact ⟨_, .receives reply rfl, (hsame.outward (resume_leaves hbase hg hresume).2).publish _⟩
  | joins => exact ⟨_, .joins rfl, .setGrant hg⟩
  | late hne => exact ⟨g, .late rfl hne, hsame⟩
  | hears hne => exact ⟨g, .hears rfl hne, hsame⟩
  | leaves => exact ⟨_, .leaves rfl ofCaller_ne_abandoned, .setGrant hg⟩
  | ends => exact ⟨g, .rests ⟨nofun, nofun⟩, hsame⟩

end

/-! ## Attendance -/

/-- Callers stand as their grant says. -/
structure Attendance (stands : Ticket → Role) (g : Grant) : Prop where
  /-- A fetch is under way exactly when the grant is busy. -/
  busy : g.busy = true ↔ ∃ i, stands i = .fetching
  /-- No two fetches are under way. -/
  one : ∀ {i j}, stands i = .fetching → stands j = .fetching → i = j
  /-- Whoever comes to the queue saw a fetch under way, and it still is or has been published. -/
  joining : ∀ {i seen}, stands i = .joining seen →
    seen < g.published ∨ seen = g.published ∧ g.busy = true
  /-- Whoever is in the queue waits for the fetch under way. -/
  queue : ∀ queued ∈ g.queue, g.busy = true ∧ queued.seen = g.published ∧
    stands queued.ticket = .awaiting g.published
  /-- Whoever waits is in the queue, or what it waits for has been published. -/
  waiting : ∀ {i seen}, stands i = .awaiting seen → seen < g.published ∨ ⟨i, seen⟩ ∈ g.queue

namespace Attendance

open Function (update)

variable {stands : Ticket → Role} {g g' : Grant} {i k : Ticket} {now : Instant} {after : Role}
  {exchange? : Option Exchange} {reply? : Option Reply} {queue : List Queued}

theorem nobody (hidle : g.busy = false) (hqueue : g.queue = []) :
    Attendance (fun _ => .away) g where
  busy := by
    rw [hidle]
    exact ⟨nofun, nofun⟩
  one := nofun
  joining := nofun
  queue := by
    rw [hqueue]
    exact nofun
  waiting := nofun

theorem update_fetching (hi : stands i ≠ .fetching) (hafter : after ≠ .fetching) :
    update stands i after k = .fetching ↔ stands k = .fetching := by
  by_cases heq : k = i
  · subst heq
    simp [hi, hafter]
  · simp [Function.update_of_ne heq]

/-- A caller that does not fetch comes to stand elsewhere, with the others in the queue where
they were. -/
theorem requeue (h : Attendance stands g) (hi : stands i ≠ .fetching) (hafter : after ≠ .fetching)
    (hjoining : ∀ {seen}, after = .joining seen →
      seen < g.published ∨ seen = g.published ∧ g.busy = true)
    (hqueue : ∀ queued ∈ queue, queued ∈ g.queue ∧ queued.ticket ≠ i ∨
      g.busy = true ∧ queued = ⟨i, g.published⟩ ∧ after = .awaiting g.published)
    (hself : ∀ {seen}, after = .awaiting seen → seen < g.published ∨ ⟨i, seen⟩ ∈ queue)
    (hothers : ∀ queued ∈ g.queue, queued.ticket ≠ i → queued ∈ queue) :
    Attendance (update stands i after) { g with queue } where
  busy := by
    simp only [update_fetching hi hafter]
    exact h.busy
  one := by
    intro j k hj hk
    rw [update_fetching hi hafter] at hj hk
    exact h.one hj hk
  joining := by
    intro j seen hj
    by_cases heq : j = i
    · subst heq
      rw [Function.update_self] at hj
      exact hjoining hj
    · rw [Function.update_of_ne heq] at hj
      exact h.joining hj
  queue := by
    intro queued hqueued
    rcases hqueue queued hqueued with ⟨hold, hne⟩ | ⟨hbusy, rfl, rfl⟩
    · rw [Function.update_of_ne hne]
      exact h.queue queued hold
    · exact ⟨hbusy, rfl, Function.update_self ..⟩
  waiting := by
    intro j seen hj
    by_cases heq : j = i
    · subst heq
      rw [Function.update_self] at hj
      exact hself hj
    · rw [Function.update_of_ne heq] at hj
      exact (h.waiting hj).imp id fun hqueued => hothers _ hqueued heq

theorem ticket_ne (h : Attendance stands g) (hi : stands i ≠ .awaiting g.published)
    {queued : Queued} (hqueued : queued ∈ g.queue) : queued.ticket ≠ i := by
  rintro rfl
  exact hi (h.queue queued hqueued).2.2

/-- A caller that neither fetches nor is in the queue comes to stand elsewhere, and still does
neither. -/
theorem settle (h : Attendance stands g) (hi : (stands i).Loose g) (hafter : after ≠ .fetching)
    (hjoining : ∀ {seen}, after = .joining seen →
      seen < g.published ∨ seen = g.published ∧ g.busy = true)
    (hself : ∀ {seen}, after = .awaiting seen → seen < g.published) :
    Attendance (update stands i after) g :=
  h.requeue hi.fetching hafter hjoining
    (fun _ hqueued => .inl ⟨hqueued, h.ticket_ne hi.queued hqueued⟩)
    (fun hseen => .inl (hself hseen)) fun _ hqueued _ => hqueued

/-- Whoever comes to the queue and finds that there has been no publication finds the fetch that
it saw still under way. -/
theorem busy_of_joining (h : Attendance stands g) (hi : stands i = .joining g.published) :
    g.busy = true :=
  ((h.joining hi).resolve_left (Nat.lt_irrefl _)).2

theorem join (h : Attendance stands g) (hi : stands i = .joining g.published) :
    Attendance (update stands i (.awaiting g.published)) (g.join i g.published) := by
  refine h.requeue (by rw [hi]; exact nofun) nofun nofun ?_ ?_ ?_
  · intro queued hqueued
    rcases List.mem_append.mp hqueued with hold | hnew
    · exact .inl ⟨hold, h.ticket_ne (by rw [hi]; exact nofun) hold⟩
    · exact .inr ⟨h.busy_of_joining hi, List.mem_singleton.mp hnew, rfl⟩
  · intro seen hseen
    obtain rfl := Role.awaiting.inj hseen
    exact .inr (List.mem_append_right _ List.mem_cons_self)
  · intro queued hqueued _
    exact List.mem_append_left _ hqueued

theorem leave (h : Attendance stands g) (hi : stands i = .awaiting g.published)
    (ending : Ending) : Attendance (update stands i (.returning ending)) (g.leave i) := by
  refine h.requeue (by rw [hi]; exact nofun) nofun nofun ?_ nofun ?_
  · intro queued hqueued
    obtain ⟨hold, hne⟩ := List.mem_filter.mp hqueued
    exact .inl ⟨hold, bne_iff_ne.mp hne⟩
  · intro queued hqueued hne
    exact List.mem_filter.mpr ⟨hqueued, bne_iff_ne.mpr hne⟩

/-- A caller begins to fetch: nobody else does, so nobody is in the queue. -/
theorem begin (h : Attendance stands g) (hidle : g.busy = false) :
    Attendance (update stands i .fetching) g.beginFetch where
  busy := ⟨fun _ => ⟨i, Function.update_self ..⟩, fun _ => rfl⟩
  one := by
    have hothers {j : Ticket} (hj : update stands i .fetching j = .fetching) : j = i := by
      by_cases heq : j = i
      · exact heq
      · rw [Function.update_of_ne heq] at hj
        rw [h.busy.mpr ⟨j, hj⟩] at hidle
        cases hidle
    intro j k hj hk
    exact (hothers hj).trans (hothers hk).symm
  joining := by
    intro j seen hj
    by_cases heq : j = i
    · subst heq
      simp at hj
    · rw [Function.update_of_ne heq] at hj
      exact (h.joining hj).imp id fun hseen => ⟨hseen.1, rfl⟩
  queue := by
    intro queued hqueued
    rw [(h.queue queued hqueued).1] at hidle
    cases hidle
  waiting := by
    intro j seen hj
    by_cases heq : j = i
    · subst heq
      simp at hj
    · rw [Function.update_of_ne heq] at hj
      exact h.waiting hj

/-- The reply to a fetch is published: nobody waits any more. -/
theorem publish (h : Attendance stands g) (hi : stands i = .fetching) (now : Instant)
    (outcome : Outcome) : Attendance (update stands i .away) (g.publish now outcome) where
  busy := by
    rw [Grant.publish_busy]
    refine ⟨nofun, ?_⟩
    rintro ⟨j, hj⟩
    by_cases heq : j = i
    · subst heq
      simp at hj
    · rw [Function.update_of_ne heq] at hj
      exact absurd (h.one hj hi) heq
  one := by
    intro j k hj _
    by_cases heq : j = i
    · subst heq
      simp at hj
    · rw [Function.update_of_ne heq] at hj
      exact absurd (h.one hj hi) heq
  joining := by
    intro j seen hj
    rw [Grant.publish_published]
    by_cases heq : j = i
    · subst heq
      simp at hj
    · rw [Function.update_of_ne heq] at hj
      rcases h.joining hj with hlt | ⟨rfl, -⟩
      · exact .inl (Nat.lt_succ_of_lt hlt)
      · exact .inl (Nat.lt_succ_self _)
  queue := by
    rw [Grant.publish_queue]
    exact nofun
  waiting := by
    intro j seen hj
    rw [Grant.publish_published]
    by_cases heq : j = i
    · subst heq
      simp at hj
    · rw [Function.update_of_ne heq] at hj
      rcases h.waiting hj with hlt | hqueued
      · exact .inl (Nat.lt_succ_of_lt hlt)
      · have hseen : seen = g.published := (h.queue _ hqueued).2.1
        exact .inl (hseen ▸ Nat.lt_succ_self _)

/-- **Every deed leaves callers standing as their grant says.** -/
theorem deed (h : Attendance stands g)
    (hdeed : Deed g i now (stands i) after exchange? reply? g') :
    Attendance (update stands i after) g' := by
  cases hdeed with
  | rests hloose => exact h.settle hloose nofun nofun nofun
  | sees hasks hbusy =>
      refine h.settle hasks.loose nofun ?_ nofun
      rintro seen ⟨⟩
      exact .inr ⟨rfl, hbusy⟩
  | asks _ hidle => exact h.begin hidle
  | exchanges reply _ hidle =>
      have hpublished := (h.begin (i := i) hidle).publish (Function.update_self ..) now
        (IssuedToken.ofReply reply)
      rwa [Function.update_idem] at hpublished
  | continues hfetching =>
      rw [← hfetching, Function.update_eq_self]
      exact h
  | receives reply hfetching => exact h.publish hfetching now _
  | joins hjoining => exact h.join hjoining
  | late hjoining hne =>
      have hlt := (h.joining hjoining).resolve_right fun hseen => hne hseen.1.symm
      refine h.settle (by rw [hjoining]; exact ⟨nofun, nofun⟩) nofun nofun ?_
      rintro _ ⟨⟩
      exact hlt
  | hears hawaiting hne =>
      refine h.settle ?_ nofun nofun nofun
      rw [hawaiting]
      exact ⟨nofun, fun heq => hne (Role.awaiting.inj heq).symm⟩
  | leaves hawaiting _ => exact h.leave hawaiting _

end Attendance

end Acquire

end BearerAuth
