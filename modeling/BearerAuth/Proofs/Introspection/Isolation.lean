import BearerAuth.Proofs.Introspection.Route
import Mathlib.Data.List.Nodup

/-!
# Calls do not get into each other's transports

Calls of the authenticator run on one timeline over a wire, in any order of
turns, with any settings and with a pool of any capacity.  Every call has a route
built from its own blueprint, calls with different blueprints never share a
grant, and what a call sends is its own: its token request, and its inquiry with
a token that was issued on its own credentials (`calls_isolated`).
-/

namespace BearerAuth

open Transport

namespace Introspection

/-! ## What a policy has sent -/

/-- An exchange that a policy has sent to ask about a token.  Without a blueprint
it is the plain inquiry; with one it is the token request of the blueprint, or the
inquiry with a token issued on its credentials. -/
def Own (peer : Peer) (options : Options) (policy : Settings.Policy)
    (schedule : Settings.Schedule) (token : Bytes) (sent : List Exchange)
    (exchange : Exchange) : Prop :=
  match blueprint? policy schedule with
  | none => exchange.url = policy.endpoint ∧ exchange.request = inquiryRequest policy token
  | some plan =>
      (exchange.url = plan.endpoint ∧ exchange.request = (plan.credentials options).request) ∨
      (exchange.url = policy.endpoint ∧ ∃ own, Issued peer sent (plan.credentials options) own ∧
        exchange.request = bearing own (inquiryRequest policy token))

/-- The phase of an exchange on a route, about a token. -/
def Route.Mine (peer : Peer) (options : Options) (policy : Settings.Policy)
    (schedule : Settings.Schedule) (token : Bytes) :
    (route : Route) → (route.transport (wire peer)).Phase → World → Prop
  | .direct, phase, w => Retry.Mine policy.endpoint (inquiryRequest policy token)
      (fun reply w => FromPeer peer w.sent policy.endpoint (inquiryRequest policy token) reply)
      phase w
  | .preAuthorized line, phase, w => ∃ plan, blueprint? policy schedule = some plan ∧
      Retry.Mine policy.endpoint (inquiryRequest policy token)
        (Authorized.Mine peer line.grant (plan.credentials options) policy.endpoint
          (inquiryRequest policy token)) phase w

section

variable {peer : Peer} {options : Options} {own : List Exchange → Exchange → Prop}
  {policy : Settings.Policy} {schedule : Settings.Schedule} {token : Bytes} {w w' : World}

theorem Route.BuiltFrom.grows {plan : Option Blueprint} {route : Route}
    (h : route.BuiltFrom options plan w) (hgrows : World.Grows own w w') :
    route.BuiltFrom options plan w' := by
  cases route with
  | direct => exact h
  | preAuthorized line =>
      obtain ⟨plan, hplan, hschedule, hgrant⟩ := h
      exact ⟨plan, hplan, hschedule, hgrows.hasGrant hgrant⟩

theorem Route.Mine.grows {route : Route} {phase : (route.transport (wire peer)).Phase}
    (h : route.Mine peer options policy schedule token phase w)
    (hgrows : World.Grows own w w') :
    route.Mine peer options policy schedule token phase w' := by
  cases route with
  | direct => exact Retry.Mine.mono h fun hreply => FromPeer.grows hreply hgrows
  | preAuthorized line =>
      obtain ⟨plan, hplan, hphase⟩ := h
      exact ⟨plan, hplan, hphase.mono fun hmine => hmine.grows hgrows⟩

theorem retried_extends {inner : Transport} {caller : Caller} {url : Url} {request : Request}
    {good : World → Prop} {mine : inner.Phase → World → Prop} {gives : Reply → World → Prop}
    (h : inner.Honours caller url request good (Extends peer own) mine gives)
    (hsound : ∀ {w}, good w → GrantsSound peer w)
    (hgood : ∀ {w w'}, good w → Extends peer own w w' → good w')
    (schedule : Settings.Schedule) :
    (retried schedule inner).Honours caller url request good (Extends peer own)
      (Retry.Mine url request mine) (fun _ _ => True) :=
  h.retried schedule hgood (fun level message hw => .note (hsound hw) level message)
    (fun hw => .refl (hsound hw)) Extends.trans

theorem route_honours (caller : Caller) (route : Route) :
    (route.transport (wire peer)).Honours caller policy.endpoint (inquiryRequest policy token)
      (fun w => GrantsSound peer w ∧ route.BuiltFrom options (blueprint? policy schedule) w)
      (Extends peer (Own peer options policy schedule token))
      (route.Mine peer options policy schedule token) (fun _ _ => True) := by
  cases route with
  | direct =>
      have hdirect (hplan : blueprint? policy schedule = none) :
          (Route.direct.transport (wire peer)).Honours caller policy.endpoint
            (inquiryRequest policy token) (GrantsSound peer)
            (Extends peer (Own peer options policy schedule token))
            (Route.direct.Mine peer options policy schedule token) (fun _ _ => True) := by
        refine retried_extends (wire_honours ?_) id (fun _ hext => hext.sound) _
        intro sent now
        rw [Own, hplan]
        exact ⟨rfl, rfl⟩
      exact ⟨fun hw => (hdirect hw.2).start hw.1, fun hw => (hdirect hw.2).resume hw.1⟩
  | preAuthorized line =>
      have hplanned {plan : Blueprint} (hplan : blueprint? policy schedule = some plan) :
          (retried line.schedule (authorized (wire peer) line.grant)).Honours caller
            policy.endpoint (inquiryRequest policy token)
            (fun w => GrantsSound peer w ∧ HasGrant w line.grant (plan.credentials options))
            (Extends peer (Own peer options policy schedule token))
            (Retry.Mine policy.endpoint (inquiryRequest policy token)
              (Authorized.Mine peer line.grant (plan.credentials options) policy.endpoint
                (inquiryRequest policy token))) (fun _ _ => True) := by
        refine retried_extends (authorized_honours ?_ ?_) And.left
          (fun hw hext => ⟨hext.sound, hext.hasGrant hw.2⟩) _
        · intro sent now
          rw [Own, hplan]
          exact .inl ⟨rfl, rfl⟩
        · intro sent now own hissued
          rw [Own, hplan]
          exact .inr ⟨rfl, own, hissued, rfl⟩
      constructor
      · intro w hw
        obtain ⟨plan, hplan, -, hgrant⟩ := hw.2
        exact ((hplanned hplan).start ⟨hw.1, hgrant⟩).mono (fun _ hs => hs)
          (fun _ _ _ hmine => ⟨plan, hplan, hmine⟩) fun _ _ _ h => h
      · intro phase w hw hmine
        obtain ⟨plan, hplan, -, hgrant⟩ := hw.2
        obtain ⟨plan', hplan', hphase⟩ := hmine
        obtain rfl := Option.some.inj (hplan.symm.trans hplan')
        exact ((hplanned hplan).resume ⟨hw.1, hgrant⟩ hphase).mono (fun _ hs => hs)
          (fun _ _ _ hmine => ⟨plan, hplan, hmine⟩) fun _ _ _ h => h

end

/-! ## Calls -/

/-- A call of the authenticator, under the settings of its time. -/
structure Call where
  settings : Settings.Store
  inquiry : Inquiry
  session : Session
  begins : Instant

namespace Call

def job (base : Transport) (options : Options) (call : Call) : Job (Pending base) Judgement where
  caller := call.inquiry.caller
  begins := call.begins
  start := start base options call.settings call.inquiry call.session
  resume := resume base call.inquiry.caller

/-- The settings make a policy for the call, and its request carries a token. -/
structure Asks (call : Call) (policy : Settings.Policy) (schedule : Settings.Schedule)
    (token : Bytes) : Prop where
  configured : policyFor call.settings call.inquiry.config = .ok (policy, schedule)
  extracted : Credential.extract call.inquiry.request policy.tokenFrom = token
  ne_nil : token ≠ []

/-- An exchange that a call has sent. -/
def Own (peer : Peer) (options : Options) (call : Call) (sent : List Exchange)
    (exchange : Exchange) : Prop :=
  ∃ policy schedule token, call.Asks policy schedule token ∧
    Introspection.Own peer options policy schedule token sent exchange

/-- A call waits on a route that was built for it. -/
def Mine (peer : Peer) (options : Options) (call : Call) (pending : Pending (wire peer))
    (w : World) : Prop :=
  ∃ schedule token, call.Asks pending.policy schedule token ∧
    pending.route.BuiltFrom options (blueprint? pending.policy schedule) w ∧
    pending.route.Mine peer options pending.policy schedule token pending.phase w

section

variable {peer : Peer} {options : Options} {own : List Exchange → Exchange → Prop} {call : Call}
  {policy : Settings.Policy} {schedule : Settings.Schedule} {token : Bytes} {w w' : World}

theorem Asks.wellFormed (h : call.Asks policy schedule token) :
    ∀ plan, blueprint? policy schedule = some plan → plan.endpoint.WellFormed :=
  fun _ hplan => blueprint_wellFormed h.configured hplan

theorem Mine.grows {pending : Pending (wire peer)} (h : call.Mine peer options pending w)
    (hgrows : World.Grows own w w') : call.Mine peer options pending w' := by
  obtain ⟨schedule, token, hasks, hbuilt, hphase⟩ := h
  exact ⟨schedule, token, hasks, hbuilt.grows hgrows, hphase.grows hgrows⟩

/-- A stretch of an exchange on the call's route, and what follows its reply. -/
theorem exchange_keeps (hasks : call.Asks policy schedule token) (h : Kept peer options w)
    {route : Route} (hbuilt : route.BuiltFrom options (blueprint? policy schedule) w)
    {stretch : Stretch (route.transport (wire peer)).Phase Reply}
    (hstretch : stretch.Keeps (Extends peer (Introspection.Own peer options policy schedule token))
      (route.Mine peer options policy schedule token) (fun _ _ => True) w)
    (ruleId : Bytes) (session : Session) :
    (stretch.andThen (fun phase => ({ policy, ruleId, session, route, phase } : Pending _))
      (finish policy ruleId session)).Keeps (Moves peer options (call.Own peer options))
        (call.Mine peer options) (fun _ _ => True) w := by
  have hmoves {w' : World}
      (hext : Extends peer (Introspection.Own peer options policy schedule token) w w') :
      Moves peer options (call.Own peer options) w w' :=
    .of_extends h (hext.mono fun _ _ hown => ⟨policy, schedule, token, hasks, hown⟩)
  have hkeeps := hstretch.mono (fun _ => hmoves) (fun _ _ _ hmine => hmine) fun _ _ _ _ => trivial
  refine hkeeps.andThen Moves.trans ?_ ?_
  · intro phase w' hmoves hmine
    exact ⟨schedule, token, hasks, hbuilt.grows hmoves.toGrows, hmine⟩
  · intro reply w' hmoves _
    simp only [finish, conclude]
    split
    · exact ⟨.note hmoves.kept _ _, trivial⟩
    · exact ⟨.note hmoves.kept _ _, trivial⟩

theorem ask_keeps (hasks : call.Asks policy schedule token) (h : Kept peer options w) :
    (ask (wire peer) options policy schedule token call.inquiry call.session w).Keeps
      (Moves peer options (call.Own peer options)) (call.Mine peer options) (fun _ _ => True)
      (routeFor options policy schedule w).2 := by
  obtain ⟨(hmoves : Moves peer options (call.Own peer options) w _), hbuilt⟩ :=
    routeFor_builtFrom h hasks.wellFormed
  exact exchange_keeps hasks hmoves.kept hbuilt
    ((route_honours _ _).start ⟨hmoves.kept.sound, hbuilt⟩) _ _

theorem start_of_asks (hasks : call.Asks policy schedule token) (base : Transport) (w : World) :
    start base options call.settings call.inquiry call.session w =
      ask base options policy schedule token call.inquiry call.session w := by
  have htoken : token.isEmpty = false := by simp [hasks.ne_nil]
  simp [start, hasks.configured, hasks.extracted, htoken]

theorem start_keeps (call : Call) (h : Kept peer options w) :
    (start (wire peer) options call.settings call.inquiry call.session w).Keeps
      (Moves peer options (call.Own peer options)) (call.Mine peer options) (fun _ _ => True)
      w := by
  cases hconfigured : policyFor call.settings call.inquiry.config with
  | error rejection =>
      simp only [start, hconfigured, reject, noteRejection]
      exact ⟨.note h _ _, trivial⟩
  | ok found =>
      obtain ⟨policy, schedule⟩ := found
      by_cases hnil : Credential.extract call.inquiry.request policy.tokenFrom = []
      · simp only [start, hconfigured, hnil, List.isEmpty_nil, if_true]
        exact ⟨.refl h, trivial⟩
      · have hasks : call.Asks policy schedule _ := ⟨hconfigured, rfl, hnil⟩
        rw [start_of_asks hasks]
        obtain ⟨(hmoves : Moves peer options (call.Own peer options) w _), -⟩ :=
          routeFor_builtFrom h hasks.wellFormed
        exact ⟨hmoves.trans (ask_keeps hasks h).1, (ask_keeps hasks h).2⟩

theorem resume_keeps {pending : Pending (wire peer)} (h : Kept peer options w)
    (hmine : call.Mine peer options pending w) :
    (resume (wire peer) call.inquiry.caller pending w).Keeps
      (Moves peer options (call.Own peer options)) (call.Mine peer options) (fun _ _ => True)
      w := by
  obtain ⟨schedule, token, hasks, hbuilt, hphase⟩ := hmine
  exact exchange_keeps hasks h hbuilt ((route_honours _ _).resume ⟨h.sound, hbuilt⟩ hphase) _ _

end

end Call

/-! ## Calls on one timeline -/

theorem Kept.alike {peer : Peer} {options : Options} {w w' : World} (h : Kept peer options w)
    (halike : World.Alike w w') : Kept peer options w' := by
  have hext : Extends peer (fun _ _ => False) w w' :=
    .of_same h.sound halike.sent halike.grants halike.pool
  exact h.extends hext

theorem calls_guaranteed (peer : Peer) (options : Options) (calls : List Call) :
    Timeline.Guaranteed (calls.map (Call.job (wire peer) options)) (Kept peer options)
      (fun i pending w => ∃ call, calls[i]? = some call ∧ call.Mine peer options pending w)
      (fun i w w' => ∃ call, calls[i]? = some call ∧
        Moves peer options (call.Own peer options) w w') where
  good_alike halike h := h.alike halike
  mine_alike := by
    rintro i pending w w' halike ⟨call, hcall, hmine⟩
    have hgrows : World.Grows (fun _ _ => False) w w' := .of_same halike.sent halike.grants
    exact ⟨call, hcall, hmine.grows hgrows⟩
  good_step := by
    rintro i w w' ⟨call, -, hmoves⟩ -
    exact hmoves.kept
  mine_step := by
    rintro i j pending w w' ⟨call, -, hmoves⟩ - ⟨call', hcall', hmine⟩
    exact ⟨call', hcall', hmine.grows hmoves.toGrows⟩
  start := by
    intro i job w hjob h
    rw [List.getElem?_map, Option.map_eq_some_iff] at hjob
    obtain ⟨call, hcall, rfl⟩ := hjob
    exact (call.start_keeps h).mono (fun _ hmoves => ⟨call, hcall, hmoves⟩)
      (fun _ _ _ hmine => ⟨call, hcall, hmine⟩) fun _ _ _ h => h
  resume := by
    intro i job pending w hjob h hmine
    rw [List.getElem?_map, Option.map_eq_some_iff] at hjob
    obtain ⟨call, hcall, rfl⟩ := hjob
    obtain ⟨call', hcall', hmine⟩ := hmine
    obtain rfl := Option.some.inj (hcall.symm.trans hcall')
    exact (Call.resume_keeps h hmine).mono (fun _ hmoves => ⟨call, hcall, hmoves⟩)
      (fun _ _ _ hmine => ⟨call, hcall, hmine⟩) fun _ _ _ h => h

section

variable {peer : Peer} {options : Options} {calls : List Call}
  {t t' : Timeline (Pending (wire peer)) Judgement}

/-- The calls on a timeline, with all in order. -/
def InOrder (peer : Peer) (options : Options) (calls : List Call)
    (t : Timeline (Pending (wire peer)) Judgement) : Prop :=
  t.jobs = calls.map (Call.job (wire peer) options) ∧
    Timeline.Sound (Kept peer options)
      (fun i pending w => ∃ call, calls[i]? = some call ∧ call.Mine peer options pending w) t

theorem Moves.of_alike {own : List Exchange → Exchange → Prop} {w w' : World}
    (h : Kept peer options w) (halike : World.Alike w w') : Moves peer options own w w' :=
  .of_extends h (.of_same h.sound halike.sent halike.grants halike.pool)

theorem Moves.mono {own own' : List Exchange → Exchange → Prop} {w w' : World}
    (h : Moves peer options own w w') (hown : ∀ sent exchange, own sent exchange →
      own' sent exchange) : Moves peer options own' w w' :=
  { h with sent := h.sent.mono hown }

theorem InOrder.next (h : InOrder peer options calls t) {label : Option Ticket}
    (hnext : Timeline.Next label t t') :
    InOrder peer options calls t' ∧
      Moves peer options (fun sent exchange => ∃ i call, label = some i ∧ calls[i]? = some call ∧
        call.Own peer options sent exchange) t.world t'.world := by
  obtain ⟨hjobs, hsound, hchanges⟩ := (calls_guaranteed peer options calls).next h.1 h.2 hnext
  refine ⟨⟨hjobs, hsound⟩, ?_⟩
  rcases hchanges with halike | ⟨i, w, hlabel, ⟨call, hcall, hmoves⟩, halike⟩
  · exact .of_alike h.2.good halike
  · exact (hmoves.mono fun _ _ hown => ⟨i, call, hlabel, hcall, hown⟩).trans
      (.of_alike hmoves.kept halike)

theorem InOrder.reaches (h : InOrder peer options calls t) (hreach : Timeline.Reaches t t') :
    InOrder peer options calls t' ∧ Moves peer options (fun _ _ => True) t.world t'.world := by
  refine hreach.invariant (I := fun t' => InOrder peer options calls t' ∧
    Moves peer options (fun _ _ => True) t.world t'.world) ⟨h, .refl h.2.good⟩ ?_
  intro label t₁ t₂ hI hnext
  obtain ⟨hnext', hmoves⟩ := hI.1.next hnext
  exact ⟨hnext', hI.2.trans (hmoves.mono fun _ _ _ => trivial)⟩

theorem InOrder.begins (h : InOrder peer options calls t) {i : Ticket} {call : Call}
    (hcall : calls[i]? = some call) {policy : Settings.Policy} {schedule : Settings.Schedule}
    {token : Bytes} (hasks : call.Asks policy schedule token)
    (hbegins : Timeline.Begins i t t') :
    Moves peer options (call.Own peer options) (routeFor options policy schedule t.world).2
      t'.world := by
  have hjob : t.jobs[i]? = some (call.job (wire peer) options) := by simp [h.1, hcall]
  have hask := (Call.ask_keeps hasks h.2.good).1
  rw [hbegins.world_eq hjob]
  simp only [Call.job, Call.start_of_asks hasks]
  exact hask.trans (.of_alike hask.kept (World.alike_timed _ _ _ _))

end

theorem routeFor_filed {peer : Peer} {options : Options} {call : Call}
    {policy : Settings.Policy} {schedule : Settings.Schedule} {token : Bytes} {w : World}
    {line : Line} (h : Kept peer options w) (hasks : call.Asks policy schedule token)
    (hroute : (routeFor options policy schedule w).1 = .preAuthorized line) :
    ∃ plan, blueprint? policy schedule = some plan ∧ plan.endpoint.WellFormed ∧
      Moves peer options (fun _ _ => True) w (routeFor options policy schedule w).2 ∧
      (plan.key, line) ∈ (routeFor options policy schedule w).2.pool := by
  cases hplan : blueprint? policy schedule with
  | none => simp [routeFor_none hplan] at hroute
  | some plan =>
      have hurl := hasks.wellFormed plan hplan
      obtain ⟨line', hroute', hmoves, hin⟩ := routeFor_some h hplan hurl
      obtain rfl := Route.preAuthorized.inj (hroute.symm.trans hroute')
      exact ⟨plan, rfl, hurl, hmoves, hin⟩

/-- Lines over one grant, one found earlier than the other, are filed under one key. -/
theorem Moves.same_plan {peer : Peer} {options : Options} {own : List Exchange → Exchange → Prop}
    {w w' : World} {plan plan' : Blueprint} {line line' : Line} (h : Kept peer options w)
    (hmoves : Moves peer options own w w') (hurl : plan.endpoint.WellFormed)
    (hurl' : plan'.endpoint.WellFormed) (hin : (plan.key, line) ∈ w.pool)
    (hin' : (plan'.key, line') ∈ w'.pool) (hgrant : line.grant = line'.grant) : plan = plan' := by
  obtain ⟨_, -, -, -, hplace⟩ := h.built hin
  have hold : (plan'.key, line') ∈ w.pool := hmoves.pool hin' (hgrant ▸ hplace.lt)
  have hsame := List.inj_on_of_nodup_map h.apart hin hold hgrant
  exact Blueprint.key_inj hurl hurl' (Prod.mk.inj hsame).1

/-- **No call gets into another's transport.**  At any time of any run the route of
a call is built from its own blueprint, and is direct when it has none.  A call whose
route was looked up when it began shares a grant with a later one only if both have
the same blueprint.  And whatever is sent in a step is the own exchange of the call
that takes its turn in it: a plain inquiry, a token request with the call's own
credentials, or an inquiry with a token that was issued on them. -/
theorem calls_isolated (peer : Peer) (options : Options) (calls : List Call) {world : World}
    (hgrants : world.grants = []) (hpool : world.pool = [])
    {t : Timeline (Pending (wire peer)) Judgement}
    (hreach : Timeline.Reaches
      (Timeline.ofJobs world (calls.map (Call.job (wire peer) options))) t) :
    (∀ {call : Call} {policy schedule token}, call.Asks policy schedule token →
      (routeFor options policy schedule t.world).1.BuiltFrom options (blueprint? policy schedule)
        (routeFor options policy schedule t.world).2) ∧
    (∀ {i call policy schedule token t' t'' call' policy' schedule' token' line line'},
      calls[i]? = some call → call.Asks policy schedule token → Timeline.Begins i t t' →
      (routeFor options policy schedule t.world).1 = .preAuthorized line →
      Timeline.Reaches t' t'' → Call.Asks call' policy' schedule' token' →
      (routeFor options policy' schedule' t''.world).1 = .preAuthorized line' →
      line.grant = line'.grant → blueprint? policy schedule = blueprint? policy' schedule') ∧
    (∀ {label t'}, Timeline.Next label t t' →
      Sends (fun sent exchange => ∃ i call, label = some i ∧ calls[i]? = some call ∧
        call.Own peer options sent exchange) t.world.sent t'.world.sent) := by
  have hfirst : InOrder peer options calls
      (Timeline.ofJobs world (calls.map (Call.job (wire peer) options))) := by
    refine ⟨rfl, Timeline.sound_ofJobs (calls_guaranteed peer options calls) ⟨⟨?_, ?_⟩, ?_, ?_⟩⟩
    · simp [hgrants]
    · simp [hgrants]
    · simp [hpool]
    · simp [hpool]
  have horder := (hfirst.reaches hreach).1
  refine ⟨?_, ?_, ?_⟩
  · intro call policy schedule token hasks
    obtain ⟨(hmoves : Moves peer options (call.Own peer options) t.world _), hbuilt⟩ :=
      routeFor_builtFrom horder.2.good hasks.wellFormed
    exact hbuilt
  · intro i call policy schedule token t' t'' call' policy' schedule' token' line line' hcall hasks
      hbegins hroute hlater hasks' hroute' hgrant
    have hbegun := horder.begins hcall hasks hbegins
    have horder' := (horder.next hbegins.next).1
    obtain ⟨horder'', hmeanwhile⟩ := horder'.reaches hlater
    obtain ⟨plan, hplan, hurl, hfound, hin⟩ := routeFor_filed horder.2.good hasks hroute
    obtain ⟨plan', hplan', hurl', hfound', hin'⟩ := routeFor_filed horder''.2.good hasks' hroute'
    have hmoves := ((hbegun.mono fun _ _ _ => trivial).trans hmeanwhile).trans hfound'
    rw [hplan, hplan', hmoves.same_plan hfound.kept hurl hurl' hin hin' hgrant]
  · intro label t' hnext
    exact (horder.next hnext).2.sent

/-! ## Two clients of one endpoint -/

def clientCall (secret : String) : Call where
  settings := [(identifier, {
    enabled := true
    defaults := [
      (utf8 "introspection_url", .text (utf8 "http://i/")),
      (utf8 "pre_authorization", .object [
        (utf8 "enabled", .bool true),
        (utf8 "client_id", .text (utf8 "c")),
        (utf8 "client_secret", .text (utf8 secret)),
        (utf8 "token_url", .text (utf8 "http://t/"))])] })]
  inquiry := {
    request := { headers := [(utf8 "Authorization", utf8 "Bearer x")] }
    ruleId := []
    config := [] }
  session := {}
  begins := 0

def issuingPeer : Peer := fun _ _ =>
  .ok { reply := .ok { status := 200, body := utf8 "\x7b\"access_token\":\"t\"\x7d" } }

/-- Before the first of two clients begins. -/
def twoClients : Timeline (Pending (wire issuingPeer)) Judgement :=
  Timeline.ofJobs {} ([clientCall "a", clientCall "b"].map (Call.job (wire issuingPeer) {}))

def oneClientLater : Timeline (Pending (wire issuingPeer)) Judgement :=
  (twoClients.leaveLine 0).takeTurn 0

/-- The blueprint of a client, the token it asks about, and its route in a world. -/
def lookup (secret : String) (w : World) : Option (Option Blueprint × Bytes × Route) :=
  (policyFor (clientCall secret).settings []).toOption.map fun found =>
    (blueprint? found.1 found.2,
      Credential.extract (clientCall secret).inquiry.request found.1.tokenFrom,
      (routeFor {} found.1 found.2 w).1)

theorem lookup_eq_some {secret : String} {w : World} {plan : Option Blueprint} {token : Bytes}
    {route : Route} (h : lookup secret w = some (plan, token, route)) (hne : token ≠ []) :
    ∃ policy schedule, (clientCall secret).Asks policy schedule token ∧
      blueprint? policy schedule = plan ∧ (routeFor {} policy schedule w).1 = route := by
  obtain ⟨⟨policy, schedule⟩, hfound, heq⟩ := Option.map_eq_some_iff.mp h
  have hpolicy : policyFor (clientCall secret).settings [] = .ok (policy, schedule) := by
    cases hcase : policyFor (clientCall secret).settings [] with
    | error rejection => simp [hcase, Except.toOption] at hfound
    | ok found => simpa [hcase, Except.toOption] using hfound
  obtain ⟨hplan, htoken, hroute⟩ : _ ∧ _ ∧ _ := by simpa using heq
  exact ⟨policy, schedule, ⟨hpolicy, htoken, hne⟩, hplan, hroute⟩

def clientPlan (secret : String) : Blueprint where
  endpoint := { scheme := utf8 "http", host := utf8 "t", port := utf8 "80", target := utf8 "/" }
  clientId := utf8 "c"
  clientSecret := utf8 secret
  scopes := []
  schedule := { baseDelay := 500000000, giveUpAfter := 1000000000 }

/-- Two clients that differ in their secrets alone have grants of their own. -/
theorem two_clients_apart :
    ∃ line line',
      lookup "a" twoClients.world =
        some (some (clientPlan "a"), utf8 "x", .preAuthorized line) ∧
      lookup "b" oneClientLater.world =
        some (some (clientPlan "b"), utf8 "x", .preAuthorized line') ∧
      line.grant ≠ line'.grant := by
  have hfirst : lookup "a" twoClients.world = some (some (clientPlan "a"), utf8 "x",
      .preAuthorized ⟨0, (clientPlan "a").schedule⟩) := by decide +kernel
  have hsecond : lookup "b" oneClientLater.world = some (some (clientPlan "b"), utf8 "x",
      .preAuthorized ⟨1, (clientPlan "b").schedule⟩) := by decide +kernel
  refine ⟨_, _, hfirst, hsecond, fun hgrant => ?_⟩
  have hbegins : Timeline.Begins 0 twoClients oneClientLater :=
    ⟨.turn (by decide), ⟨none, rfl⟩, fun job hjob => Option.some.inj hjob ▸ Int.le_refl 0⟩
  obtain ⟨policy, schedule, hasks, hplan, hroute⟩ := lookup_eq_some hfirst (by decide)
  obtain ⟨policy', schedule', hasks', hplan', hroute'⟩ := lookup_eq_some hsecond (by decide)
  have hsame := (calls_isolated issuingPeer {} [clientCall "a", clientCall "b"] rfl rfl .refl).2.1
    (i := 0) rfl hasks hbegins hroute .refl hasks' hroute' hgrant
  rw [hplan, hplan'] at hsame
  exact absurd hsame (by decide)

end Introspection

end BearerAuth
