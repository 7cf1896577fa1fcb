import BearerAuth.Chain
import BearerAuth.Proofs.Secrecy.Transport

/-!
# Paired judgements

Inquiries are paired when they are the same but for the client's secret in the rule and the tokens
in the request, wherever those are looked for.  The answer about a token is read for its members
other than a token, so paired replies are judged alike (`judge_eq`), with the same details.
Introspection then does the same for paired inquiries in paired worlds, and so does a chain of
authenticators that do.
-/

namespace BearerAuth

open Transport Introspection

namespace Pairing

/-! ## Answers -/

section

variable {σ : Pairing} {members members' : Json.Members}

/-- The members that are read from an answer. -/
def answerFields : List String :=
  ["active", "ext", "aud", "sub", "username", "token_type", "iss", "client_id", "scope"]

theorem answerFields_ne : ∀ field ∈ answerFields, utf8 field ≠ utf8 "access_token" := by
  decide

theorem answer_ofMembers_eq (h : Fields (utf8 "access_token") (Strings σ.Tokens) members members') :
    Answer.ofMembers members' = Answer.ofMembers members := by
  have hread (field : String) (hfield : field ∈ answerFields) :
      members'.present? (utf8 field) = members.present? (utf8 field) :=
    (h.present?_ne (answerFields_ne field hfield)).symm
  simp only [answerFields, List.mem_cons] at hread
  simp only [Answer.ofMembers, Answer.activeOf, Answer.extraOf, Answer.audienceOf, Answer.text,
    hread "active", hread "ext", hread "aud", hread "sub", hread "username", hread "token_type",
    hread "iss", hread "client_id", hread "scope", true_or, or_true]

theorem answer_ofBody_eq {body body' : Bytes} (h : Sources σ.Answers body body') :
    Answer.ofBody body' = Answer.ofBody body := by
  cases h with
  | same => rfl
  | read hvalue hvalue' hanswers =>
      rw [Answer.ofBody, Answer.ofBody, hvalue, hvalue']
      cases hanswers with
      | object hfields => exact answer_ofMembers_eq hfields
      | same => rfl

theorem readReply_pairs {reply reply' : Reply} (h : σ.Replies reply reply') :
    readReply reply' = readReply reply := by
  cases h with
  | failure => rfl
  | response hbodies =>
      simp only [readReply, readResponse]
      rw [answer_ofBody_eq hbodies]

theorem judge_eq {policy policy' : Settings.Policy} {reply reply' : Reply}
    (hpolicies : σ.Policies policy policy') (hreplies : σ.Replies reply reply') :
    judge policy' reply' = judge policy reply := by
  rw [judge, judge, readReply_pairs hreplies, hpolicies.rest]
  rfl

end

/-! ## Authenticators -/

/-- Inquiries for one caller under paired rules, with requests of one shape: wherever a token is
looked for, those that are found there are paired. -/
structure Inquiries (σ : Pairing) (inquiry inquiry' : Inquiry) : Prop where
  caller : inquiry.caller = inquiry'.caller
  ruleId : inquiry.ruleId = inquiry'.ruleId
  config : Sources σ.Rules inquiry.config inquiry'.config
  tokens : ∀ location, σ.Tokens (Credential.extract inquiry.request location)
    (Credential.extract inquiry'.request location)

/-- Authenticators that come to the same judgements on paired inquiries. -/
structure Authenticators {φ φ' : Type} (σ : Pairing) (settings : Settings.Store)
    (phases : φ → φ' → Prop) (authenticator : Authenticator φ) (authenticator' : Authenticator φ') :
    Prop where
  validate : ∀ {config config' world world'}, Sources σ.Rules config config' →
    σ.Worlds world world' →
    (authenticator'.validate settings config' world').1 =
        (authenticator.validate settings config world).1 ∧
      σ.Worlds (authenticator.validate settings config world).2
        (authenticator'.validate settings config' world').2
  start : ∀ {inquiry inquiry' world world'} session, σ.Inquiries inquiry inquiry' →
    σ.Worlds world world' → σ.Stretches phases Eq
      (authenticator.start settings inquiry session world)
      (authenticator'.start settings inquiry' session world')
  resume : ∀ {phase phase' world world'} caller, phases phase phase' → σ.Worlds world world' →
    σ.Stretches phases Eq (authenticator.resume caller phase world)
      (authenticator'.resume caller phase' world')

section

variable {σ : Pairing}

theorem Sources.eq_iff {values : Json → Json → Prop} {text text' other : Bytes} {fault : Json.Fault}
    (h : Sources values text text') (hother : Json.parse other = .error fault) :
    text = other ↔ text' = other := by
  cases h with
  | same => rfl
  | read hvalue hvalue' =>
      constructor
      · rintro rfl
        cases hother.symm.trans hvalue
      · rintro rfl
        cases hother.symm.trans hvalue'

theorem fixed_authenticators {φ φ' : Type} (phases : φ → φ' → Prop) (settings : Settings.Store)
    (behaviour : Authenticator.Behaviour) :
    σ.Authenticators settings phases (.fixed φ behaviour) (.fixed φ' behaviour) := by
  constructor
  · intro config config' world world' hconfigs hworlds
    have hrefused : Json.parse Authenticator.refusedConfig = .error ⟨.invalidValue, 0⟩ := rfl
    simp only [Authenticator.fixed, hconfigs.eq_iff hrefused]
    split
    · exact ⟨rfl, hworlds⟩
    · exact ⟨rfl, hworlds⟩
  · intro inquiry inquiry' world world' session _ hworlds
    exact .ite (fun _ => .done rfl hworlds) fun _ => .done rfl hworlds
  · intro phase phase' world world' caller _ hworlds
    exact .done rfl hworlds

end

/-! ## Introspection -/

section

variable {σ : Pairing} {base base' : Transport} {phases : base.Phase → base'.Phase → Prop}

/-- The pauses of the transport of a route. -/
def RoutePhases (σ : Pairing) (phases : base.Phase → base'.Phase → Prop) :
    (route : Route) → (route.transport base).Phase → (route.transport base').Phase → Prop
  | .direct => σ.Attempts phases
  | .preAuthorized _ => σ.Attempts (σ.Errands phases)

theorem route_transports (h : σ.Transports base base' phases) (route : Route) :
    σ.Transports (route.transport base) (route.transport base') (σ.RoutePhases phases route) := by
  cases route with
  | direct => exact retried_transports h _
  | preAuthorized line => exact retried_transports (authorized_transports h _) _

inductive Pendings (σ : Pairing) (phases : base.Phase → base'.Phase → Prop) :
    Pending base → Pending base' → Prop
  | asked (ruleId : Bytes) (session : Session) (route : Route) {policy policy' : Settings.Policy}
      {phase : (route.transport base).Phase} {phase' : (route.transport base').Phase} :
      σ.Policies policy policy' → σ.RoutePhases phases route phase phase' →
      Pendings σ phases ⟨policy, ruleId, session, route, phase⟩
        ⟨policy', ruleId, session, route, phase'⟩

theorem credentials_pairs {pre pre' : Settings.PreAuthorization}
    (h : σ.PreAuthorizations pre pre') (options : Options) (endpoint : Url) :
    σ.CredentialPairs (credentials options pre endpoint) (credentials options pre' endpoint) := by
  refine ⟨?_, h.secret⟩
  rw [credentials, credentials, h.rest]

theorem lineFor_pairs {pre pre' : Settings.PreAuthorization} {world world' : World}
    (h : σ.PreAuthorizations pre pre') (hworlds : σ.Worlds world world') (options : Options)
    (endpoint : Url) (schedule : Settings.Schedule) :
    (lineFor options pre' endpoint schedule world').1 =
        (lineFor options pre endpoint schedule world).1 ∧
      σ.Worlds (lineFor options pre endpoint schedule world).2
        (lineFor options pre' endpoint schedule world').2 := by
  have hkeys : σ.Keys (Pool.key endpoint pre schedule) (Pool.key endpoint pre' schedule) :=
    ⟨endpoint, schedule, pre, pre', h, rfl, rfl⟩
  -- the keys hold secrets, yet the pools have a line for one exactly where they do for the other
  rw [lineFor, lineFor, hworlds.pool.find?_eq hkeys]
  cases world.pool.find? (Pool.key endpoint pre schedule) with
  | some line => exact ⟨rfl, hworlds⟩
  | none =>
      obtain ⟨hplace, hopened⟩ := hworlds.openGrant (credentials_pairs h options endpoint)
      have hclient : pre'.clientId = pre.clientId := by rw [h.rest]
      simp only [addLine, hplace, hclient]
      refine ⟨trivial, Worlds.note ?_ _ _⟩
      obtain ⟨hfiled, hpool⟩ := Pools.makeRoom options.capacity hopened.filed hopened.pool
      exact { hopened with
        pool := hpool.insert hkeys _
        filed := List.rel_append hfiled (.cons hkeys .nil) }

theorem routeFor_pairs {policy policy' : Settings.Policy} {world world' : World}
    (h : σ.Policies policy policy') (hworlds : σ.Worlds world world') (options : Options)
    (schedule : Settings.Schedule) :
    (routeFor options policy' schedule world').1 = (routeFor options policy schedule world).1 ∧
      σ.Worlds (routeFor options policy schedule world).2
        (routeFor options policy' schedule world').2 := by
  have hclients := h.client
  rw [routeFor, routeFor]
  generalize policy.preAuthorization = client at hclients ⊢
  generalize policy'.preAuthorization = client' at hclients ⊢
  cases hclients with
  | none => exact ⟨rfl, hworlds⟩
  | @some pre pre' hpre =>
      have hendpoint : pre'.endpoint = pre.endpoint := by rw [hpre.rest]
      simp only [hendpoint]
      cases pre.endpoint with
      | none => exact ⟨rfl, hworlds⟩
      | some endpoint =>
          obtain ⟨hline, hworlds'⟩ := lineFor_pairs hpre hworlds options endpoint schedule
          exact ⟨congrArg Route.preAuthorized hline, hworlds'⟩

theorem finish_judgements {policy policy' : Settings.Policy} {reply reply' : Reply}
    {world world' : World} (hpolicies : σ.Policies policy policy')
    (hreplies : σ.Replies reply reply') (hworlds : σ.Worlds world world') (ruleId : Bytes)
    (session : Session) :
    σ.Stretches (σ.Pendings phases) Eq (finish policy ruleId session reply world)
      (finish policy' ruleId session reply' world') := by
  simp only [finish, conclude, judge_eq hpolicies hreplies]
  cases judge policy reply with
  | error rejection => exact .done rfl (hworlds.note _ _)
  | ok answer => exact .done rfl (hworlds.note _ _)

theorem ask_judgements (h : σ.Transports base base' phases) {policy policy' : Settings.Policy}
    {token token' : Bytes} {inquiry inquiry' : Inquiry} {world world' : World}
    (hpolicies : σ.Policies policy policy') (htokens : σ.Tokens token token')
    (hinquiries : σ.Inquiries inquiry inquiry') (hworlds : σ.Worlds world world')
    (options : Options) (schedule : Settings.Schedule) (session : Session) :
    σ.Stretches (σ.Pendings phases) Eq
      (ask base options policy schedule token inquiry session world)
      (ask base' options policy' schedule token' inquiry' session world') := by
  obtain ⟨hroute, hrouted⟩ := routeFor_pairs hpolicies hworlds options schedule
  simp only [ask, ← hinquiries.caller, ← hinquiries.ruleId]
  generalize routeFor options policy schedule world = routed at hroute hrouted ⊢
  generalize routeFor options policy' schedule world' = routed' at hroute hrouted ⊢
  obtain ⟨route, worldAt⟩ := routed
  obtain ⟨route', worldAt'⟩ := routed'
  obtain rfl : route' = route := hroute
  have hendpoint : policy'.endpoint = policy.endpoint := by rw [hpolicies.rest]
  simp only [hendpoint]
  refine ((route_transports h route').start inquiry.caller policy.endpoint
    (inquiryRequest_pairs hpolicies htokens) hrouted).andThen ?_ ?_
  · intro phase phase' hphases
    exact .asked inquiry.ruleId session route' hpolicies hphases
  · intro reply reply' world world' hreplies hworlds
    exact finish_judgements hpolicies hreplies hworlds inquiry.ruleId session

theorem start_judgements (h : σ.Transports base base' phases) {settings : Settings.Store}
    {inquiry inquiry' : Inquiry} {world world' : World} (hsettings : σ.Settled settings)
    (hinquiries : σ.Inquiries inquiry inquiry') (hworlds : σ.Worlds world world')
    (options : Options) (session : Session) :
    σ.Stretches (σ.Pendings phases) Eq
      (Introspection.start base options settings inquiry session world)
      (Introspection.start base' options settings inquiry' session world') := by
  have hpolicies := policyFor_outcomes hsettings hinquiries.config
  rw [Introspection.start, Introspection.start]
  generalize policyFor settings inquiry.config = found at hpolicies ⊢
  generalize policyFor settings inquiry'.config = found' at hpolicies ⊢
  cases hpolicies with
  | error rejection => exact .done rfl (hworlds.note _ _)
  | @ok found found' hfound =>
      obtain ⟨policy, schedule⟩ := found
      obtain ⟨policy', schedule'⟩ := found'
      obtain ⟨hpolicies, hschedule⟩ : σ.Policies policy policy' ∧ schedule = schedule' := hfound
      obtain rfl := hschedule
      have hlocation : policy'.tokenFrom = policy.tokenFrom := by rw [hpolicies.rest]
      have htokens := hinquiries.tokens policy.tokenFrom
      simp only [hlocation, ← htokens.isEmpty_eq]
      refine .ite (fun _ => .done rfl hworlds) fun _ => ?_
      exact ask_judgements h hpolicies htokens hinquiries hworlds options schedule session

theorem introspection_authenticators (h : σ.Transports base base' phases)
    {settings : Settings.Store} (hsettings : σ.Settled settings) (options : Options) :
    σ.Authenticators settings (σ.Pendings phases) (authenticator base options)
      (authenticator base' options) := by
  constructor
  · intro config config' world world' hconfigs hworlds
    simp only [authenticator, validate, configure]
    by_cases henabled : settings.isEnabled identifier = true
    · have hpolicies := policyFor_outcomes hsettings hconfigs
      simp only [henabled, Bool.not_true, Bool.false_eq_true, if_false]
      generalize policyFor settings config = found at hpolicies ⊢
      generalize policyFor settings config' = found' at hpolicies ⊢
      cases hpolicies with
      | error rejection => exact ⟨rfl, hworlds.note _ _⟩
      | ok => exact ⟨rfl, hworlds⟩
    · simp only [henabled, Bool.not_false, if_true]
      exact ⟨trivial, hworlds⟩
  · intro inquiry inquiry' world world' session hinquiries hworlds
    exact start_judgements h hsettings hinquiries hworlds options session
  · intro pending pending' world world' caller hpendings hworlds
    cases hpendings with
    | asked ruleId session route hpolicies hphases =>
        refine ((route_transports h route).resume caller hphases hworlds).andThen ?_ ?_
        · intro phase phase' hphases
          exact .asked ruleId session route hpolicies hphases
        · intro reply reply' world world' hreplies hworlds
          exact finish_judgements hpolicies hreplies hworlds ruleId session

end

/-! ## Chains -/

section

variable {φ φ' : Type} {σ : Pairing} {phases : φ → φ' → Prop} {settings : Settings.Store}
  {roster : Roster φ} {roster' : Roster φ'}

/-- Rosters of authenticators that come to the same judgements. -/
def Rosters (σ : Pairing) (settings : Settings.Store) (phases : φ → φ' → Prop) :
    Roster φ → Roster φ' → Prop :=
  List.Forall₂ fun entry entry' => entry.1 = entry'.1 ∧
    σ.Authenticators settings phases entry.2 entry'.2

theorem Rosters.find? (h : σ.Rosters settings phases roster roster') (id : Bytes) :
    Option.Rel (σ.Authenticators settings phases) (roster.find? id) (roster'.find? id) := by
  induction h with
  | nil => exact .none
  | @cons entry entry' rest rest' hentry _ ih =>
      obtain ⟨key, authenticator⟩ := entry
      obtain ⟨key', authenticator'⟩ := entry'
      obtain ⟨hkey, hauthenticators⟩ := hentry
      obtain rfl : key = key' := hkey
      by_cases hid : key = id
      · simp only [Roster.find?, hid, if_true]
        exact .some hauthenticators
      · simp only [Roster.find?, hid, if_false]
        exact ih

/-- Handlers of one authenticator, under paired rules. -/
structure Handlers (σ : Pairing) (handler handler' : Handler) : Prop where
  authenticator : handler.authenticator = handler'.authenticator
  config : Sources σ.Rules handler.config handler'.config

/-- Petitions for one caller under paired rules, with requests of one shape. -/
structure Petitions (σ : Pairing) (petition petition' : Chain.Petition) : Prop where
  caller : petition.caller = petition'.caller
  id : petition.rule.id = petition'.rule.id
  handlers : List.Forall₂ σ.Handlers petition.rule.handlers petition'.rule.handlers
  tokens : ∀ location, σ.Tokens (Credential.extract petition.request location)
    (Credential.extract petition'.request location)

structure ChainPendings (σ : Pairing) (phases : φ → φ' → Prop) (pending : Chain.Pending φ)
    (pending' : Chain.Pending φ') : Prop where
  handler : σ.Handlers pending.handler pending'.handler
  rest : List.Forall₂ σ.Handlers pending.rest pending'.rest
  phase : phases pending.phase pending'.phase

theorem Petitions.inquiry {petition petition' : Chain.Petition} {handler handler' : Handler}
    (h : σ.Petitions petition petition') (hhandlers : σ.Handlers handler handler') :
    σ.Inquiries (petition.inquiry handler) (petition'.inquiry handler') :=
  ⟨h.caller, h.id, hhandlers.config, h.tokens⟩

theorem afterHandler_stretches {handler handler' : Handler} {rest rest' : List Handler}
    {next : Session → World → Stretch (Chain.Pending φ) Judgement}
    {next' : Session → World → Stretch (Chain.Pending φ') Judgement}
    {stretch : Stretch φ Judgement} {stretch' : Stretch φ' Judgement}
    (hhandlers : σ.Handlers handler handler') (hrest : List.Forall₂ σ.Handlers rest rest')
    (hnext : ∀ session world world', σ.Worlds world world' →
      σ.Stretches (σ.ChainPendings phases) Eq (next session world) (next' session world'))
    (h : σ.Stretches phases Eq stretch stretch') (ruleId : Bytes) :
    σ.Stretches (σ.ChainPendings phases) Eq
      (Chain.afterHandler ruleId handler rest next stretch)
      (Chain.afterHandler ruleId handler' rest' next' stretch') := by
  refine h.andThen ?_ ?_
  · intro phase phase' hphases
    exact ⟨hhandlers, hrest, hphases⟩
  · rintro ⟨outcome, session⟩ _ world world' rfl hworlds
    cases outcome with
    | error message => exact .done rfl hworlds
    | ok verdict =>
        cases verdict with
        | notResponsible =>
            simp only [Chain.notePassed, ← hhandlers.authenticator]
            exact hnext session _ _ (hworlds.note _ _)
        | _ => exact .done rfl hworlds

theorem tryAll_stretches (hrosters : σ.Rosters settings phases roster roster')
    {petition petition' : Chain.Petition} (hpetitions : σ.Petitions petition petition')
    {handlers handlers' : List Handler} (h : List.Forall₂ σ.Handlers handlers handlers')
    (session : Session) {world world' : World} (hworlds : σ.Worlds world world') :
    σ.Stretches (σ.ChainPendings phases) Eq
      (Chain.tryAll roster settings petition handlers session world)
      (Chain.tryAll roster' settings petition' handlers' session world') := by
  induction h generalizing session world world' with
  | nil =>
      rw [Chain.tryAll, Chain.tryAll, ← hpetitions.id]
      exact .done rfl (hworlds.note _ _)
  | @cons handler handler' rest rest' hhandlers hrest ih =>
      rw [Chain.tryAll, Chain.tryAll, ← hhandlers.authenticator, ← hpetitions.id]
      have hfound := hrosters.find? handler.authenticator
      generalize roster.find? handler.authenticator = found at hfound ⊢
      generalize roster'.find? handler.authenticator = found' at hfound ⊢
      cases hfound with
      | none => exact .done rfl hworlds
      | some hauthenticators =>
          refine .ite (fun _ => .done rfl hworlds) fun _ => ?_
          have hcalled : σ.Worlds { world with called := world.called ++ [handler] }
              { world' with called := world'.called ++ [handler'] } := { hworlds with }
          exact afterHandler_stretches hhandlers hrest (fun session _ _ => ih session)
            (hauthenticators.start session (hpetitions.inquiry hhandlers) hcalled) petition.rule.id

theorem chain_start (hrosters : σ.Rosters settings phases roster roster')
    {petition petition' : Chain.Petition} (hpetitions : σ.Petitions petition petition')
    (session : Session) {world world' : World} (hworlds : σ.Worlds world world') :
    σ.Stretches (σ.ChainPendings phases) Eq
      (Chain.start roster settings petition session world)
      (Chain.start roster' settings petition' session world') :=
  tryAll_stretches hrosters hpetitions hpetitions.handlers session hworlds

theorem chain_resume (hrosters : σ.Rosters settings phases roster roster')
    {petition petition' : Chain.Petition} (hpetitions : σ.Petitions petition petition')
    {pending : Chain.Pending φ} {pending' : Chain.Pending φ'}
    (h : σ.ChainPendings phases pending pending') {world world' : World}
    (hworlds : σ.Worlds world world') :
    σ.Stretches (σ.ChainPendings phases) Eq
      (Chain.resume roster settings petition pending world)
      (Chain.resume roster' settings petition' pending' world') := by
  rw [Chain.resume, Chain.resume, ← h.handler.authenticator, ← hpetitions.id,
    ← hpetitions.caller]
  have hfound := hrosters.find? pending.handler.authenticator
  generalize roster.find? pending.handler.authenticator = found at hfound ⊢
  generalize roster'.find? pending.handler.authenticator = found' at hfound ⊢
  cases hfound with
  | none => exact .done rfl hworlds
  | some hauthenticators =>
      refine afterHandler_stretches h.handler h.rest ?_
        (hauthenticators.resume petition.caller h.phase hworlds) petition.rule.id
      intro session world world' hworlds
      exact tryAll_stretches hrosters hpetitions h.rest session hworlds

/-- Rules of one identifier, with paired handlers. -/
structure RulePairs (σ : Pairing) (rule rule' : Rule) : Prop where
  id : rule.id = rule'.id
  handlers : List.Forall₂ σ.Handlers rule.handlers rule'.handlers

theorem validate_pairs (hrosters : σ.Rosters settings phases roster roster') {rule rule' : Rule}
    (h : σ.RulePairs rule rule') {world world' : World} (hworlds : σ.Worlds world world') :
    (Chain.validate roster' settings rule' world').1 =
        (Chain.validate roster settings rule world).1 ∧
      σ.Worlds (Chain.validate roster settings rule world).2
        (Chain.validate roster' settings rule' world').2 := by
  obtain ⟨id, handlers⟩ := rule
  obtain ⟨id', handlers'⟩ := rule'
  obtain ⟨hid, hhandlers⟩ := h
  obtain rfl : id = id' := hid
  have hall : (Chain.validateHandlers roster' settings id handlers' world').1 =
        (Chain.validateHandlers roster settings id handlers world).1 ∧
      σ.Worlds (Chain.validateHandlers roster settings id handlers world).2
        (Chain.validateHandlers roster' settings id handlers' world').2 := by
    simp only at hhandlers
    induction hhandlers generalizing world world' with
    | nil => exact ⟨rfl, hworlds⟩
    | @cons handler handler' rest rest' hhandler _ ih =>
        rw [Chain.validateHandlers, Chain.validateHandlers, ← hhandler.authenticator]
        have hfound := hrosters.find? handler.authenticator
        generalize roster.find? handler.authenticator = found at hfound ⊢
        generalize roster'.find? handler.authenticator = found' at hfound ⊢
        cases hfound with
        | none => exact ⟨rfl, hworlds⟩
        | @some authenticator authenticator' hauthenticators =>
            obtain ⟨hverdict, hleft⟩ := hauthenticators.validate hhandler.config hworlds
            simp only
            generalize authenticator.validate settings handler.config world = checked
              at hverdict hleft ⊢
            generalize authenticator'.validate settings handler'.config world' = checked'
              at hverdict hleft ⊢
            obtain ⟨verdict, left⟩ := checked
            obtain ⟨verdict', left'⟩ := checked'
            obtain rfl : verdict' = verdict := hverdict
            cases verdict' with
            | success => exact ih hleft
            | _ => exact ⟨rfl, hleft⟩
  simp only [Chain.validate]
  cases hhandlers with
  | nil => exact ⟨rfl, hworlds⟩
  | cons _ _ => exact hall

end

end Pairing

end BearerAuth
