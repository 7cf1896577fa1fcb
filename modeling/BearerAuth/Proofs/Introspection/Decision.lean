import BearerAuth.Proofs.Introspection.Reference
import BearerAuth.Proofs.Stretch

/-!
# The authenticator decides as the reference does

Reading an answer and finding its members well typed are the same thing:
`reads_ofMembers`, put together from one lemma for each member by
`Reads.bind`.  Judging a reply and going through its requirements are the same
thing: `ruling_judge`, put together from one lemma for each check by
`ruling_bind`.  `run_eq_reference` then holds a whole run against the
reference, through any transport and whatever happens in its pauses.
-/

namespace BearerAuth

namespace Introspection

/-! ## Reading an answer -/

/-- A reader gives a value under a condition, and a fault otherwise. -/
def Reads {ε α : Type} (condition : Bool) (outcome : Except ε α) (value : α) : Prop :=
  if condition then outcome = .ok value else ∃ fault, outcome = .error fault

theorem Reads.bind {ε α β : Type} {c d : Bool} {outcome : Except ε α} {value : α}
    {next : α → Except ε β} {value' : β} (h : Reads c outcome value)
    (h' : Reads d (next value) value') : Reads (c && d) (outcome >>= next) value' := by
  cases c with
  | false =>
      obtain ⟨fault, rfl⟩ : ∃ fault, outcome = .error fault := h
      exact ⟨fault, rfl⟩
  | true =>
      obtain rfl : outcome = .ok value := h
      exact h'

theorem reads_text (members : Json.Members) (field : String) :
    Reads (fits members isText field) (Answer.text members field) (textAt members field) := by
  rw [fits, Answer.text, textAt]
  cases members.present? (utf8 field) with
  | none => rfl
  | some value =>
      cases value with
      | text s => rfl
      | _ => exact ⟨_, rfl⟩

theorem reads_activeOf (members : Json.Members) :
    Reads (fits members isBool "active") (Answer.activeOf members) (saysActive members) := by
  rw [fits, Answer.activeOf, saysActive]
  cases members.present? (utf8 "active") with
  | none => rfl
  | some value =>
      cases value with
      | bool b => rfl
      | _ => exact ⟨_, rfl⟩

/-- The members that an answer hands on. -/
def extraAt (members : Json.Members) : Json.Members :=
  match members.present? (utf8 "ext") with
  | some (.object extra) => extra
  | _ => []

theorem reads_extraOf (members : Json.Members) :
    Reads (fits members Json.isObject "ext") (Answer.extraOf members) (extraAt members) := by
  rw [fits, Answer.extraOf, extraAt]
  cases members.present? (utf8 "ext") with
  | none => rfl
  | some value =>
      cases value with
      | object extra => rfl
      | _ => exact ⟨_, rfl⟩

theorem reads_texts (items : List Json) :
    Reads (items.all isText) (Answer.texts items) (items.filterMap textOf?) := by
  induction items with
  | nil => rfl
  | cons item rest ih =>
      cases item with
      | text s =>
          rw [Reads] at ih ⊢
          cases hall : rest.all isText with
          | true =>
              rw [hall] at ih
              simp [isText, hall, Answer.texts, show Answer.texts rest = _ from ih, Except.map,
                textOf?]
          | false =>
              rw [hall] at ih
              obtain ⟨fault, hread⟩ : ∃ fault, Answer.texts rest = .error fault := ih
              simp [isText, hall, Answer.texts, hread, Except.map]
      | _ => exact ⟨_, rfl⟩

theorem reads_audienceOf (members : Json.Members) :
    Reads (fits members isAudience "aud") (Answer.audienceOf members) (audiencesOf members) := by
  rw [fits, Answer.audienceOf, audiencesOf]
  cases members.present? (utf8 "aud") with
  | none => rfl
  | some value =>
      cases value with
      | text s => rfl
      | array items => exact reads_texts items
      | _ => exact ⟨_, rfl⟩

def answerOf (members : Json.Members) : Answer where
  active := saysActive members
  extra := extraAt members
  audience := audiencesOf members
  subject := textAt members "sub"
  username := textAt members "username"
  tokenType := textAt members "token_type"
  issuer := textAt members "iss"
  clientId := textAt members "client_id"
  scope := textAt members "scope"

theorem reads_ofMembers (members : Json.Members) :
    Reads (wellTyped members) (Answer.ofMembers members) (answerOf members) := by
  have hfields : wellTyped members = (fits members isBool "active" &&
      (fits members Json.isObject "ext" && (fits members isAudience "aud" &&
      (fits members isText "sub" && (fits members isText "username" &&
      (fits members isText "token_type" && (fits members isText "iss" &&
      (fits members isText "client_id" && (fits members isText "scope" && true))))))))) := by
    simp [wellTyped, textFields, Bool.and_assoc]
  rw [hfields]
  rw [Answer.ofMembers]
  refine .bind (reads_activeOf members) <| .bind (reads_extraOf members) <|
    .bind (reads_audienceOf members) <| .bind (reads_text members "sub") <|
    .bind (reads_text members "username") <| .bind (reads_text members "token_type") <|
    .bind (reads_text members "iss") <| .bind (reads_text members "client_id") <|
    .bind (reads_text members "scope") ?_
  rfl

/-! ## Judging a reply -/

/-- What an outcome rules: success, or the refusal of the rejection. -/
def rulingOf {α : Type} : Except Rejection α → Ruling
  | .ok _ => .success
  | .error rejection => .refused rejection.1

theorem ruling_bind {α β : Type} {outcome : Except Rejection α} {next : α → Except Rejection β}
    {refusal : Refusal} {met : Bool} {rest : List Requirement}
    (hfirst : rulingOf outcome = rule [⟨refusal, met⟩])
    (hrest : ∀ value, outcome = .ok value → rulingOf (next value) = rule rest) :
    rulingOf (outcome >>= next) = rule (⟨refusal, met⟩ :: rest) := by
  cases outcome with
  | ok value =>
      cases met with
      | true => exact hrest value rfl
      | false => cases hfirst
  | error rejection =>
      cases met with
      | true => cases hfirst
      | false => exact hfirst

theorem ruling_checkType (answer : Answer) :
    rulingOf (checkType answer) =
      rule [⟨.forbidden, [[], utf8 "access_token"].contains answer.tokenType⟩] := by
  rw [checkType, accessTokenType]
  by_cases h : answer.tokenType = []
  · simp [h, rule, rulingOf]
  · by_cases h' : answer.tokenType = utf8 "access_token" <;> simp [h, h', rule, rulingOf]

theorem ruling_checkActive (answer : Answer) :
    rulingOf (checkActive answer) = rule [⟨.unauthorized, answer.active⟩] := by
  rw [checkActive]
  cases answer.active <;> rfl

theorem find?_not {α : Type} (p : α → Bool) (l : List α) :
    (l.find? fun a => !p a) = none ↔ l.all p = true := by
  simp [List.find?_eq_none]

theorem ruling_checkAudience (policy : Settings.Policy) (answer : Answer) :
    rulingOf (checkAudience policy answer) =
      rule [⟨.forbidden, policy.targetAudiences.all answer.audience.contains⟩] := by
  rw [checkAudience]
  have hall := find?_not answer.audience.contains policy.targetAudiences
  cases h : policy.targetAudiences.find? fun audience => !answer.audience.contains audience with
  | none => simp only [rule, hall.mp h, rulingOf, if_true]
  | some audience =>
      have hne : policy.targetAudiences.all answer.audience.contains = false := by
        rw [h] at hall
        simpa using hall
      simp only [rule, hne, rulingOf]
      rfl

theorem ruling_checkIssuer (policy : Settings.Policy) (answer : Answer) :
    rulingOf (checkIssuer policy answer) =
      rule [⟨.forbidden, policy.trustedIssuers.isEmpty ||
        policy.trustedIssuers.contains answer.issuer⟩] := by
  rw [checkIssuer]
  cases policy.trustedIssuers.isEmpty || policy.trustedIssuers.contains answer.issuer <;> rfl

theorem ruling_checkScopes (policy : Settings.Policy) (answer : Answer) :
    rulingOf (checkScopes policy answer) =
      rule [⟨.forbidden, policy.scopeStrategy == .none ||
        policy.requiredScopes.all (granted policy.scopeStrategy
          (Bytes.split Ascii.space answer.scope))⟩] := by
  unfold checkScopes granted
  cases hmatcher : policy.scopeStrategy.matcher? with
  | none =>
      have hnone : policy.scopeStrategy = .none := by
        cases hs : policy.scopeStrategy with
        | none => rfl
        | _ => simp [hs, Scope.Strategy.matcher?] at hmatcher
      simp [hnone, rule, rulingOf]
  | some covers =>
      have hsome : (policy.scopeStrategy == Scope.Strategy.none) = false := by
        cases hs : policy.scopeStrategy with
        | none => simp [hs, Scope.Strategy.matcher?] at hmatcher
        | _ => rfl
      have hall := find?_not (covers (Bytes.split Ascii.space answer.scope))
        policy.requiredScopes
      cases h : policy.requiredScopes.find? fun required =>
          !covers (Bytes.split Ascii.space answer.scope) required with
      | none => simp [hsome, rule, h, hall.mp h, rulingOf]
      | some required =>
          have hne : policy.requiredScopes.all
              (covers (Bytes.split Ascii.space answer.scope)) = false := by
            rw [h] at hall
            simpa using hall
          simp [hsome, rule, h, hne, rulingOf]

theorem ruling_check (policy : Settings.Policy) (answer : Answer) :
    rulingOf (check policy answer) = rule
      [⟨.forbidden, [[], utf8 "access_token"].contains answer.tokenType⟩,
       ⟨.unauthorized, answer.active⟩,
       ⟨.forbidden, policy.targetAudiences.all answer.audience.contains⟩,
       ⟨.forbidden, policy.trustedIssuers.isEmpty ||
          policy.trustedIssuers.contains answer.issuer⟩,
       ⟨.forbidden, policy.scopeStrategy == .none ||
          policy.requiredScopes.all (granted policy.scopeStrategy
            (Bytes.split Ascii.space answer.scope))⟩] := by
  rw [check]
  refine ruling_bind (ruling_checkType answer) fun _ _ => ?_
  refine ruling_bind (ruling_checkActive answer) fun _ _ => ?_
  refine ruling_bind (ruling_checkAudience policy answer) fun _ _ => ?_
  refine ruling_bind (ruling_checkIssuer policy answer) fun _ _ => ?_
  exact ruling_checkScopes policy answer

/-- Handing the answer on after the checks rules as the checks do. -/
theorem ruling_check_ok (policy : Settings.Policy) (answer : Answer) :
    rulingOf (check policy answer >>= fun _ => .ok answer) = rulingOf (check policy answer) := by
  cases check policy answer <;> rfl

/-- A reply is read when it is a response of status 200 whose body is an object
with well typed members. -/
theorem readReply_eq (reply : Transport.Reply) :
    (isOk reply = false ∧ rulingOf (readReply reply) = .refused .transport) ∨
      (isOk reply = true ∧ (objectOf reply).any wellTyped = false ∧
        rulingOf (readReply reply) = .refused .decode) ∨
      (isOk reply = true ∧ (objectOf reply).any wellTyped = true ∧
        readReply reply = .ok (answerOf ((objectOf reply).getD []))) := by
  cases reply with
  | error failure => exact .inl ⟨rfl, rfl⟩
  | ok response =>
      rw [readReply, readResponse]
      by_cases hstatus : response.status = 200
      · refine .inr ?_
        have hok : isOk (.ok response) = true := by simp [isOk, hstatus]
        simp only [hok, hstatus, objectOf, Answer.ofBody, ne_eq, not_true_eq_false, if_false,
          true_and]
        cases Json.parse response.body with
        | error fault => exact .inl ⟨rfl, rfl⟩
        | ok value =>
            cases value with
            | object members =>
                have hread := reads_ofMembers members
                rw [Reads] at hread
                cases hfits : wellTyped members with
                | true => exact .inr ⟨by simpa using hfits, by simp_all⟩
                | false =>
                    rw [hfits] at hread
                    obtain ⟨fault, hread⟩ : ∃ fault, Answer.ofMembers members = .error fault :=
                      hread
                    exact .inl ⟨by simpa using hfits, by simp [hread, rulingOf]⟩
            | _ => exact .inl ⟨rfl, rfl⟩
      · exact .inl ⟨by simpa [isOk] using hstatus, by simp [hstatus, rulingOf]⟩

theorem ruling_judge (policy : Settings.Policy) (reply : Transport.Reply) :
    rulingOf (judge policy reply) = rule (requirements policy reply) := by
  rw [judge, requirements]
  rcases readReply_eq reply with ⟨hok, hread⟩ | ⟨hok, hfits, hread⟩ | ⟨hok, hfits, hread⟩
  · cases hr : readReply reply with
    | ok answer => rw [hr] at hread; cases hread
    | error rejection =>
        rw [hr] at hread
        exact hread.trans (by simp [rule, hok])
  · cases hr : readReply reply with
    | ok answer => rw [hr] at hread; cases hread
    | error rejection =>
        rw [hr] at hread
        exact hread.trans (by simp [rule, hok, hfits])
  · rw [hread]
    refine (ruling_check_ok policy _).trans ((ruling_check policy _).trans ?_)
    simp [rule, hok, hfits, answerOf]

/-! ## Whole runs -/

/-- The reply to the inquiry about a token, if it comes: that of the transport
that the route names, seen through the same pauses as the whole run. -/
def exchange (base : Transport) (options : Options) (caller : Caller) (world : World)
    (worlds : List World) (policy : Settings.Policy) (schedule : Settings.Schedule)
    (token : Bytes) : Option Transport.Reply :=
  let (route, world) := routeFor options policy schedule world
  (Stretch.through ((route.transport base).resume caller) worlds
    ((route.transport base).start caller policy.endpoint (inquiryRequest policy token)
      world)).result?

theorem ruling_conclude (policy : Settings.Policy) (ruleId : Bytes) (session : Session)
    (reply : Transport.Reply) (world : World) :
    (conclude policy ruleId session reply world).1.1.map Verdict.ruling =
      .ok (rule (requirements policy reply)) := by
  rw [← ruling_judge]
  rw [conclude]
  cases judge policy reply <;> rfl

theorem settles_finish {base : Transport} (policy : Settings.Policy) (ruleId : Bytes)
    (session : Session) : Stretch.Settles (@finish base policy ruleId session) :=
  fun _ _ => ⟨_, _, rfl⟩

/-- A run that asks the endpoint is the transport's run, and then the judgement
on its reply. -/
theorem through_ask (base : Transport) (options : Options) (policy : Settings.Policy)
    (schedule : Settings.Schedule) (token : Bytes) (inquiry : Inquiry) (session : Session)
    (world : World) (worlds : List World) :
    ((Stretch.through (resume base inquiry.caller) worlds
        (ask base options policy schedule token inquiry session world)).result?).map
        (fun judgement => judgement.1.map Verdict.ruling) =
      (exchange base options inquiry.caller world worlds policy schedule token).map
        fun reply => .ok (rule (requirements policy reply)) := by
  rw [ask, exchange]
  obtain ⟨route, world⟩ := routeFor options policy schedule world
  simp only
  have hresume (phase : (route.transport base).Phase) (world : World) :
      resume base inquiry.caller { policy, ruleId := inquiry.ruleId, session, route, phase } world
        = ((route.transport base).resume inquiry.caller phase world).andThen
            (fun phase => { policy, ruleId := inquiry.ruleId, session, route, phase })
            (finish policy inquiry.ruleId session) := rfl
  rw [Stretch.through_andThen hresume (settles_finish policy inquiry.ruleId session)]
  match Stretch.through ((route.transport base).resume inquiry.caller) worlds
      ((route.transport base).start inquiry.caller policy.endpoint
        (inquiryRequest policy token) world) with
  | (.paused _ _, _) => rfl
  | (.done reply, world) =>
      simp only [Stretch.andThen_done, Stretch.result?_done, Option.map_some]
      exact congrArg some (ruling_conclude policy inquiry.ruleId session reply world)

theorem policyFor_error {settings : Settings.Store} {config : Bytes} {rejection : Rejection}
    (h : policyFor settings config = .error rejection) : rejection.1 = .misconfigured := by
  rw [policyFor] at h
  split at h
  · cases h; rfl
  · split at h
    · cases h; rfl
    · split at h
      · cases h; rfl
      · cases h

theorem rule_ne_notResponsible (requirements : List Requirement) :
    rule requirements ≠ .notResponsible := by
  induction requirements with
  | nil => simp [rule]
  | cons requirement rest ih =>
      rw [rule]
      split
      · exact ih
      · simp

/-- **A run decides as the reference does**, whatever the transport does and
whatever happens in the pauses.  A run that passes the request on changes
nothing at all, so no exchange was made and the pool is as it was; and a run
succeeds exactly when the settings make a policy, there is a token, and the
reply to the inquiry meets every requirement. -/
theorem run_eq_reference (base : Transport) (options : Options) (settings : Settings.Store)
    (inquiry : Inquiry) (session : Session) (world : World) (worlds : List World) :
    let run := Stretch.through (resume base inquiry.caller) worlds
      (start base options settings inquiry session world)
    let ruling := run.result?.map fun judgement => judgement.1.map Verdict.ruling
    ruling = (reference settings inquiry
        (exchange base options inquiry.caller world worlds)).map Except.ok ∧
    (ruling = some (.ok .notResponsible) →
      run = (.done (.ok .notResponsible, session), world)) ∧
    (ruling = some (.ok .success) ↔
      ∃ policy schedule reply, policyFor settings inquiry.config = .ok (policy, schedule) ∧
        Credential.extract inquiry.request policy.tokenFrom ≠ [] ∧
        exchange base options inquiry.caller world worlds policy schedule
          (Credential.extract inquiry.request policy.tokenFrom) = some reply ∧
        ∀ requirement ∈ requirements policy reply, requirement.met = true) := by
  intro run ruling
  have hruling : ruling = (reference settings inquiry
      (exchange base options inquiry.caller world worlds)).map Except.ok ∧
      (ruling = some (.ok .notResponsible) →
        run = (.done (.ok .notResponsible, session), world)) := by
    rw [reference_eq]
    simp only [ruling, run, start]
    cases hpolicy : policyFor settings inquiry.config with
    | error rejection =>
        simp [reject, Except.map, Verdict.ruling, policyFor_error hpolicy]
    | ok found =>
        obtain ⟨policy, schedule⟩ := found
        cases htoken : Credential.extract inquiry.request policy.tokenFrom with
        | nil => simp [htoken, Except.map, Verdict.ruling]
        | cons b rest =>
            simp only [htoken, List.isEmpty_cons, Bool.false_eq_true, if_false, through_ask]
            refine ⟨by simp [Option.map_map, Function.comp_def], fun h => ?_⟩
            obtain ⟨reply, -, hreply⟩ := Option.map_eq_some_iff.mp h
            exact absurd (Except.ok.inj hreply) (rule_ne_notResponsible _)
  refine ⟨hruling.1, hruling.2, ?_⟩
  rw [← reference_eq_success_iff, hruling.1]
  cases reference settings inquiry (exchange base options inquiry.caller world worlds) <;> simp

end Introspection

end BearerAuth
