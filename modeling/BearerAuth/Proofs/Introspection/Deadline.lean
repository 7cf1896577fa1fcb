import BearerAuth.Proofs.Grant.Deadline
import BearerAuth.Proofs.Grant.FailureIsolation
import BearerAuth.Proofs.Introspection.Isolation

/-!
# Calls end by their deadlines

The exchange of a call stays within the budget of its route: retries over the wire, or
retries over exchanges that are authorized first.  So every call that has a deadline ends by
it, or at its beginning when that is later, and so does every caller that acquires a token
(`calls_end_by_deadline`), whatever others do at the same time, with or without a deadline.
-/

namespace BearerAuth

open Stretch Transport

namespace Introspection

/-! ## Routes -/

def Route.Paced : Route → Prop
  | .direct => True
  | .preAuthorized line => line.schedule.Moderate

def Route.budget {base : Transport} (inner : Budget base.Phase) :
    (route : Route) → Budget (route.transport base).Phase
  | .direct => Retry.budget Settings.Schedule.brisk inner
  | .preAuthorized line => Retry.budget line.schedule (Authorized.budget line.grant inner)

theorem route_staysWithin {base : Transport} {inner : Budget base.Phase}
    (hbase : base.StaysWithin inner) {route : Route} (h : route.Paced) :
    (route.transport base).StaysWithin (route.budget inner) := by
  cases route with
  | direct => exact Retry.retried_staysWithin hbase Settings.Schedule.brisk_moderate
  | preAuthorized line =>
      exact Retry.retried_staysWithin (authorized_staysWithin hbase line.grant) h

section

variable {w : World} {options : Options} {policy : Settings.Policy}
  {schedule : Settings.Schedule}

theorem publications_openGrant (credentials : Credentials) :
    (w.openGrant credentials).2.publications = w.publications := by
  funext place
  simp only [World.publications, World.grant, World.openGrant]
  rcases Nat.lt_trichotomy place w.grants.length with hlt | heq | hgt
  · rw [List.getElem?_append_left hlt]
  · subst heq
    simp
  · rw [List.getElem?_eq_none (Nat.le_of_lt hgt), List.getElem?_eq_none]
    simp only [List.length_append, List.length_cons, List.length_nil]
    omega

theorem lineFor_orderly (hpaced : w.Paced) (hschedule : schedule.Moderate)
    (pre : Settings.PreAuthorization) (endpoint : Url) :
    (lineFor options pre endpoint schedule w).1.schedule.Moderate ∧
      w.Orderly (lineFor options pre endpoint schedule w).2 ∧
      (lineFor options pre endpoint schedule w).2.publications = w.publications := by
  rw [lineFor]
  split
  · next line hline => exact ⟨hpaced _ (find?_mem hline), .refl w, rfl⟩
  · refine ⟨hschedule, ⟨⟨rfl, rfl⟩, ?_⟩, publications_openGrant _⟩
    intro entry hentry
    rcases Pool.mem_insert hentry with hold | rfl
    · exact .inl hold
    · exact .inr hschedule

theorem routeFor_orderly (hpaced : w.Paced) (hschedule : schedule.Moderate) :
    (routeFor options policy schedule w).1.Paced ∧
      w.Orderly (routeFor options policy schedule w).2 ∧
      (routeFor options policy schedule w).2.publications = w.publications := by
  rw [routeFor]
  split
  · exact ⟨trivial, .refl w, rfl⟩
  · split
    · exact ⟨trivial, .refl w, rfl⟩
    · exact lineFor_orderly hpaced hschedule _ _

end

/-! ## Calls -/

/-- The budget of a call.  Before it begins it is not known which route it will take. -/
def budget {base : Transport} (inner : Budget base.Phase) : Budget (Pending base) where
  fetches pending := (pending.route.budget inner).fetches pending.phase
  pauses publications pending := (pending.route.budget inner).pauses publications pending.phase
  rank pending := (pending.route.budget inner).rank pending.phase
  mine pending now := pending.route.Paced ∧ (pending.route.budget inner).mine pending.phase now
  later hmine hle := ⟨hmine.1, Budget.later _ hmine.2 hle⟩
  allFetches := (Route.direct.budget inner).allFetches +
    ((Route.preAuthorized ⟨0, .brisk⟩).budget inner).allFetches
  allPauses := (Route.direct.budget inner).allPauses +
    ((Route.preAuthorized ⟨0, .brisk⟩).budget inner).allPauses

section

variable {base : Transport} {inner : Budget base.Phase} {w : World}

theorem allFetches_le (route : Route) :
    (route.budget inner).allFetches ≤ (budget inner).allFetches := by
  cases route with
  | direct => exact Nat.le_add_right _ _
  | preAuthorized line => exact Nat.le_add_left _ _

theorem allPauses_le (route : Route) :
    (route.budget inner).allPauses ≤ (budget inner).allPauses := by
  cases route with
  | direct => exact Nat.le_add_right _ _
  | preAuthorized line => exact Nat.le_add_left _ _

theorem reject_noted (rejection : Rejection) (session : Session) (w : World) :
    World.Noted w (reject rejection session w).2 :=
  .inr ⟨_, _, rfl⟩

theorem conclude_noted (policy : Settings.Policy) (ruleId : Bytes) (session : Session)
    (reply : Reply) (w : World) :
    World.Noted w (conclude policy ruleId session reply w).2 := by
  rw [conclude]
  split
  · exact reject_noted _ session w
  · exact .inr ⟨_, _, rfl⟩

theorem judging_spends {route : Route} {fetches pauses rank : Nat} {deadline : Option Instant}
    {stretch : Stretch (route.transport base).Phase Reply} (hpaced : route.Paced)
    (h : stretch.Spends (route.budget inner) deadline fetches pauses rank w)
    (policy : Settings.Policy) (ruleId : Bytes) (session : Session) :
    (stretch.andThen (fun phase => (⟨policy, ruleId, session, route, phase⟩ : Pending base))
      (finish policy ruleId session)).Spends (budget inner) deadline (fetches + 0) (pauses + 0)
        rank w := by
  have hpart : (route.budget inner).PartOf (budget inner)
      (fun phase => ⟨policy, ruleId, session, route, phase⟩) 0 0 :=
    ⟨fun _ => rfl, fun _ _ => rfl, fun _ => rfl⟩
  refine h.andThen hpart (fun _ hphase => ⟨hpaced, hphase⟩) ?_
  intro reply w' _
  have hnoted := conclude_noted policy ruleId session reply w'
  exact spends_done _ hnoted.orderly hnoted.publications

theorem ask_spends (hbase : base.StaysWithin inner) {schedule : Settings.Schedule}
    (hschedule : schedule.Moderate) (hpaced : w.Paced) (hnow : Clock.Moderate w.now)
    (options : Options) (policy : Settings.Policy) (token : Bytes) (inquiry : Inquiry)
    (session : Session) :
    (ask base options policy schedule token inquiry session w).Spends (budget inner)
      inquiry.caller.deadline (budget inner).allFetches (budget inner).allPauses 0 w := by
  obtain ⟨hroute, horderly, hsame⟩ :=
    @routeFor_orderly w options policy schedule hpaced hschedule
  rw [ask]
  generalize routeFor options policy schedule w = found at hroute horderly hsame
  obtain ⟨route, w'⟩ := found
  have hexchange := (route_staysWithin hbase hroute).start inquiry.caller policy.endpoint
    (inquiryRequest policy token) (horderly.now.symm ▸ hnow : Clock.Moderate w'.now)
  exact ((judging_spends hroute hexchange policy inquiry.ruleId session).after horderly
    hsame).mono (allFetches_le route) (allPauses_le route) (Nat.le_refl _)

theorem resolveSpan_pos {path : String} {text default : Bytes} {span : Span}
    (h : Settings.resolveSpan path text default = .ok span) : 0 < span := by
  rw [Settings.resolveSpan] at h
  split at h
  · cases h
  · split at h
    · cases h
    · next hpositive =>
        obtain rfl := Except.ok.inj h
        exact Int.not_le.mp hpositive

theorem schedule_pos {settings : Settings.Store} {config : Bytes} {policy : Settings.Policy}
    {schedule : Settings.Schedule} (h : policyFor settings config = .ok (policy, schedule)) :
    0 < schedule.baseDelay ∧ 0 < schedule.giveUpAfter := by
  obtain ⟨-, -, -, hfound⟩ := policyFor_eq_ok.mp h
  rw [Settings.Policy.schedule] at hfound
  split at hfound
  · obtain rfl := Except.ok.inj hfound
    exact ⟨by decide, by decide⟩
  · simp only [bind_eq_ok] at hfound
    obtain ⟨baseDelay, hdelay, giveUpAfter, hlimit, hfound⟩ := hfound
    obtain rfl := Except.ok.inj hfound
    exact ⟨resolveSpan_pos hdelay, resolveSpan_pos hlimit⟩

theorem schedule_moderate {settings : Settings.Store} {config : Bytes} {policy : Settings.Policy}
    {schedule : Settings.Schedule} (h : policyFor settings config = .ok (policy, schedule))
    (hbase : schedule.baseDelay < 2 ^ 61) (hlimit : schedule.giveUpAfter < 2 ^ 61) :
    schedule.Moderate :=
  ⟨(schedule_pos h).1, hbase, hlimit⟩

/-- The retry durations that a call's settings make are below 2^61 nanoseconds. -/
def Call.Moderate (call : Call) : Prop :=
  ∀ policy schedule, policyFor call.settings call.inquiry.config = .ok (policy, schedule) →
    schedule.baseDelay < 2 ^ 61 ∧ schedule.giveUpAfter < 2 ^ 61

theorem call_start_spends (hbase : base.StaysWithin inner) {call : Call} (hcall : call.Moderate)
    (hpaced : w.Paced) (hnow : Clock.Moderate w.now) (options : Options) :
    (start base options call.settings call.inquiry call.session w).Spends (budget inner)
      call.inquiry.caller.deadline (budget inner).allFetches (budget inner).allPauses 0 w := by
  rw [start]
  split
  · next rejection _ =>
      have hnoted := reject_noted rejection call.session w
      exact spends_done _ hnoted.orderly hnoted.publications
  · next policy schedule hfound =>
      obtain ⟨hdelay, hlimit⟩ := hcall policy schedule hfound
      dsimp only
      split
      · exact spends_done _ (.refl w) rfl
      · exact ask_spends hbase (schedule_moderate hfound hdelay hlimit) hpaced hnow options policy
          _ call.inquiry call.session

theorem calls_frugal (hbase : base.StaysWithin inner) (options : Options) {calls : List Call}
    (hcalls : ∀ call ∈ calls, call.Moderate) :
    Timeline.Frugal (budget inner) World.Paced (calls.map (Call.job base options)) where
  alike halike hpaced := by
    intro entry hentry
    rw [halike.pool] at hentry
    exact hpaced entry hentry
  orderly := World.Orderly.paced
  start := by
    intro i job w hjob hpaced hnow
    obtain ⟨call, hcall, rfl⟩ := List.mem_map.mp (List.mem_of_getElem? hjob)
    exact call_start_spends hbase (hcalls call hcall) hpaced hnow options
  resume := by
    intro i job pending w hjob _ hnow hmine
    obtain ⟨call, -, rfl⟩ := List.mem_map.mp (List.mem_of_getElem? hjob)
    obtain ⟨policy, ruleId, session, route, phase⟩ := pending
    obtain ⟨hroute, hphase⟩ := hmine
    exact judging_spends hroute
      ((route_staysWithin hbase hroute).resume call.inquiry.caller hnow hphase) policy ruleId
      session

theorem callers_frugal (hbase : base.StaysWithin inner) (place : Nat)
    (callers : List (Instant × Caller)) :
    Timeline.Frugal (Acquire.budget place inner) (fun _ => True)
      (Acquire.crowd base place callers) where
  alike _ _ := trivial
  orderly _ _ := trivial
  start := by
    intro i job w hjob _ hnow
    obtain ⟨entry, -, rfl⟩ := List.mem_map.mp (List.mem_of_getElem? hjob)
    exact Acquire.start_spends hbase hnow
  resume := by
    intro i job phase w hjob _ hnow hmine
    obtain ⟨entry, -, rfl⟩ := List.mem_map.mp (List.mem_of_getElem? hjob)
    exact Acquire.resume_spends hbase hnow hmine

/-! ## The theorem -/

/-- **No call outlives its request.**  Over a base transport whose exchanges end by the
deadlines of their callers, a call with a deadline ends by it, or at its own beginning when
that is later: alone, and together with any other calls, each with settings, a request and a
deadline of its own or none, whatever the route, and through all token requests, waits for
the token requests of others, retries and rests between them.  The same holds for all callers
that acquire a token. -/
theorem calls_end_by_deadline {rank : base.Phase → Nat} (hbase : base.Punctual rank) :
    (∀ (options : Options) (calls : List Call), (∀ call ∈ calls, call.Moderate) →
      Timeline.Timely (calls.map (Call.job base options)) World.Paced) ∧
    ∀ (place : Nat) (callers : List (Instant × Caller)),
      Timeline.Timely (Acquire.crowd base place callers) fun _ => True := by
  constructor
  · intro options calls hcalls
    exact (calls_frugal hbase.staysWithin options hcalls).timely
  · intro place callers
    exact (callers_frugal hbase.staysWithin place callers).timely

end

/-! ## A client that waits -/

def slowCall (ticket : Ticket) (deadline : Option Instant) : Call where
  settings := [(identifier, {
    enabled := true
    defaults := [
      (utf8 "introspection_url", .text (utf8 "http://i/")),
      (utf8 "pre_authorization", .object [
        (utf8 "enabled", .bool true),
        (utf8 "client_id", .text (utf8 "c")),
        (utf8 "client_secret", .text (utf8 "s")),
        (utf8 "token_url", .text (utf8 "http://t/"))])] })]
  inquiry := {
    caller := { ticket, deadline }
    request := { headers := [(utf8 "Authorization", utf8 "Bearer x")] }
    ruleId := []
    config := [] }
  session := {}
  begins := 0

def slowPeer : Peer := fun _ _ => .ok { delay := 1000000000, reply := .ok {} }

/-- The first call fetches a token, without a deadline; the second one waits for it. -/
def slowCalls : List Call := [slowCall 0 none, slowCall 1 (some 7)]

/-- The callers of these calls, with the beginnings of the calls. -/
def slowCallers : List (Instant × Caller) :=
  slowCalls.map fun call => (call.begins, call.inquiry.caller)

theorem slowCall_moderate (ticket : Ticket) (deadline : Option Instant) :
    (slowCall ticket deadline).Moderate := by
  have hdurations : (policyFor (slowCall 0 none).settings []).toOption.all (fun found =>
      decide (found.2.baseDelay < 2 ^ 61) && decide (found.2.giveUpAfter < 2 ^ 61)) = true := by
    decide +kernel
  intro policy schedule hfound
  rw [show policyFor (slowCall 0 none).settings [] = .ok (policy, schedule) from hfound]
    at hdurations
  simpa [Except.toOption] using hdurations

/-- The second call ends at its deadline, while it waits for the token, and so does its
caller when it only acquires a token. -/
theorem waiting_call_ends_by_deadline :
    Timeline.EndsBy (Timeline.ofJobs {} (slowCalls.map (Call.job (wire slowPeer) {}))) 1 7 ∧
      Timeline.EndsBy (Timeline.ofJobs {} (Acquire.crowd (wire slowPeer) 0 slowCallers)) 1 7 := by
  have hmoderate : ∀ call ∈ slowCalls, call.Moderate := by
    intro call hcall
    rcases List.mem_cons.mp hcall with rfl | hcall
    · exact slowCall_moderate _ _
    · exact List.mem_singleton.mp hcall ▸ slowCall_moderate _ _
  have hpaced : World.Paced {} := nofun
  have hlow : -(2 ^ 61) < (0 : Int) := by decide
  have hbound : max (max (0 : Int) 0) 7 < 2 ^ 61 := by decide
  have hjob : (slowCalls.map (Call.job (wire slowPeer) {}))[1]? =
      some ((slowCall 1 (some 7)).job (wire slowPeer) {}) := rfl
  have hcaller : (Acquire.crowd (wire slowPeer) 0 slowCallers)[1]? =
      some (Acquire.job (wire slowPeer) 0 0 { ticket := 1, deadline := some 7 }) := rfl
  obtain ⟨hcalls, hcallers⟩ := calls_end_by_deadline (wire_punctual slowPeer)
  exact ⟨(hcalls {} slowCalls hmoderate).together hpaced hlow hjob rfl hbound,
    (hcallers 0 slowCallers).together trivial hlow hcaller rfl hbound⟩

end Introspection

end BearerAuth
