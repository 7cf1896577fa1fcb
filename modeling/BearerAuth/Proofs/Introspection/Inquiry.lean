import BearerAuth.Proofs.Form
import BearerAuth.Proofs.Introspection.Headers

/-!
# What an inquiry says

An inquiry asks the endpoint of its policy about one token.  Its body is read back as the token,
whatever bytes it has, and the required scopes where the policy does not match them itself; its
headers are the configured ones, with those of a form and of the client's own authorization in
their place (`Inquires`).  Whatever a call sends, on either route and in every attempt, is such
an inquiry or the token request of its own client (`inquiries_are_complete`), and nothing but
the token comes from the request that the call is about.
-/

namespace BearerAuth

open Transport

namespace Introspection

/-! ## The form -/

/-- The fields that an inquiry has: the token, and the required scopes when the strategy is
none. -/
def fieldsFor (policy : Settings.Policy) (token : Bytes) : Form.Fields :=
  if policy.scopeStrategy = .none then
    [(utf8 "token", token), (utf8 "scope", Bytes.join Ascii.space policy.requiredScopes)]
  else [(utf8 "token", token)]

theorem form_eq (policy : Settings.Policy) (token : Bytes) :
    form policy token = fieldsFor policy token := by
  rw [form, fieldsFor]
  cases policy.scopeStrategy with
  | none => rfl
  | exact => rfl
  | hierarchic => rfl
  | wildcard => rfl

/-! ## The headers -/

/-- The headers of an inquiry: the last of each configured name, unless the inquiry has a header
of its own for it; the content type of a form; and the authorization of the client, where it has
a token of its own. -/
inductive Carries (policy : Settings.Policy) (own : Option Bytes) : Bytes × Bytes → Prop
  | configured {header : Bytes × Bytes} : Headers.Last policy.headers header →
      Bytes.sameLetters header.1 (utf8 "Content-Type") = false →
      (own.isSome → Bytes.sameLetters header.1 (utf8 "Authorization") = false) →
      Carries policy own (header.1, Bytes.trim header.2)
  | contentType : Carries policy own (utf8 "Content-Type", formMediaType)
  | authorization {token : Bytes} : own = some token →
      Carries policy own (utf8 "Authorization", Bytes.trim (utf8 "Bearer " ++ token))

section

variable {peer : Peer} {options : Options} {policy : Settings.Policy}
  {schedule : Settings.Schedule} {token : Bytes} {header : Bytes × Bytes}

/-- The content type is set over whatever was configured. -/
theorem mem_inquiry_headers :
    header ∈ (inquiryRequest policy token).headers ↔ Carries policy none header := by
  have htrim : Bytes.trim formMediaType = formMediaType := by decide
  rw [inquiryRequest, Headers.mem_set_iff, Headers.mem_setAll, htrim]
  constructor
  · rintro (⟨⟨hnone, -⟩ | ⟨last, hlast, rfl⟩, hother⟩ | rfl)
    · cases hnone
    · exact .configured hlast hother fun hsome => absurd hsome Bool.false_ne_true
    · exact .contentType
  · intro hcarries
    cases hcarries with
    | configured hlast hother _ => exact .inl ⟨.inr ⟨_, hlast, rfl⟩, hother⟩
    | contentType => exact .inr rfl
    | authorization hown => cases hown

/-- The authorization of the client is set over whatever was configured. -/
theorem mem_bearing_headers {own : Bytes} :
    header ∈ (bearing own (inquiryRequest policy token)).headers ↔
      Carries policy (some own) header := by
  have hcontent : Bytes.sameLetters (utf8 "Content-Type") (utf8 "Authorization") = false := by
    decide
  rw [bearing, Headers.mem_set_iff, mem_inquiry_headers]
  constructor
  · rintro (⟨hcarries, hother⟩ | rfl)
    · cases hcarries with
      | configured hlast hcontent' _ => exact .configured hlast hcontent' fun _ => hother
      | contentType => exact .contentType
      | authorization hown => cases hown
    · exact .authorization rfl
  · intro hcarries
    cases hcarries with
    | configured hlast hcontent' hother =>
        refine .inl ⟨.configured hlast hcontent' ?_, hother rfl⟩
        exact fun hsome => absurd hsome Bool.false_ne_true
    | contentType => exact .inl ⟨.contentType, hcontent⟩
    | authorization hown =>
        obtain rfl := Option.some.inj hown
        exact .inr rfl

theorem inquiry_headers_apart : Headers.Apart (inquiryRequest policy token).headers :=
  (Headers.Apart.setAll .nil policy.headers).set _ _

end

/-! ## The inquiry -/

/-- An exchange asks the endpoint of a policy about a token, with a token of the client's own or
without. -/
structure Inquires (policy : Settings.Policy) (token : Bytes) (own : Option Bytes)
    (exchange : Exchange) : Prop where
  url : exchange.url = policy.endpoint
  method : exchange.request.method = utf8 "POST"
  target : exchange.request.target = policy.endpoint.target
  body : (Bytes.split Ascii.ampersand exchange.request.body).map Form.decodeField =
    fieldsFor policy token
  headers : ∀ header, header ∈ exchange.request.headers ↔ Carries policy own header
  apart : Headers.Apart exchange.request.headers

/-- What a call that asks about a token sends: without a blueprint the plain inquiry, and with
one the token request, or the inquiry with a token that was issued on its credentials. -/
def Says (peer : Peer) (options : Options) (policy : Settings.Policy)
    (schedule : Settings.Schedule) (token : Bytes) (sent : List Exchange)
    (exchange : Exchange) : Prop :=
  match blueprint? policy schedule with
  | none => Inquires policy token none exchange
  | some plan =>
      (exchange.url = plan.endpoint ∧ exchange.request = (plan.credentials options).request) ∨
      ∃ own, Issued peer sent (plan.credentials options) own ∧
        Inquires policy token (some own) exchange

section

variable {peer : Peer} {options : Options} {policy : Settings.Policy}
  {schedule : Settings.Schedule} {token : Bytes} {sent : List Exchange} {exchange : Exchange}

theorem inquiry_body (policy : Settings.Policy) (token : Bytes) :
    (Bytes.split Ascii.ampersand (inquiryRequest policy token).body).map Form.decodeField =
      fieldsFor policy token := by
  have hne : form policy token ≠ [] := List.cons_ne_nil _ _
  rw [← form_eq]
  exact Form.fields_read_back hne

theorem inquires_directly (hurl : exchange.url = policy.endpoint)
    (hrequest : exchange.request = inquiryRequest policy token) :
    Inquires policy token none exchange := by
  obtain ⟨instant, url, request⟩ := exchange
  obtain rfl : request = inquiryRequest policy token := hrequest
  exact ⟨hurl, rfl, rfl, inquiry_body policy token, fun header => mem_inquiry_headers,
    inquiry_headers_apart⟩

theorem inquires_bearing {own : Bytes} (hurl : exchange.url = policy.endpoint)
    (hrequest : exchange.request = bearing own (inquiryRequest policy token)) :
    Inquires policy token (some own) exchange := by
  obtain ⟨instant, url, request⟩ := exchange
  obtain rfl : request = bearing own (inquiryRequest policy token) := hrequest
  exact ⟨hurl, rfl, rfl, inquiry_body policy token, fun header => mem_bearing_headers,
    inquiry_headers_apart.set _ _⟩

theorem Own.says (h : Own peer options policy schedule token sent exchange) :
    Says peer options policy schedule token sent exchange := by
  rw [Own] at h
  rw [Says]
  cases hplan : blueprint? policy schedule with
  | none =>
      rw [hplan] at h
      exact inquires_directly h.1 h.2
  | some plan =>
      rw [hplan] at h
      rcases h with htoken | ⟨hurl, own, hissued, hrequest⟩
      · exact .inl htoken
      · exact .inr ⟨own, hissued, inquires_bearing hurl hrequest⟩

end

/-! ## The theorem -/

theorem policy_headers_sorted {settings : Settings.Store} {config : Bytes}
    {policy : Settings.Policy} {schedule : Settings.Schedule}
    (h : policyFor settings config = .ok (policy, schedule)) :
    policy.headers.Pairwise fun header other => Bytes.le header.1 other.1 = true := by
  obtain ⟨members, hpolicy⟩ := policyFor_ok h
  obtain ⟨found, -, hheaders⟩ := Settings.policy_headers_eq hpolicy
  rw [hheaders]
  exact Bytes.sortOn_sorted Prod.fst (found.getD [])

/-- A call begins in the same way whatever else is in the request that it is about. -/
theorem start_of_extract {base : Transport} {options : Options} {call : Call}
    {policy : Settings.Policy} {schedule : Settings.Schedule} {token : Bytes}
    (h : call.Asks policy schedule token) {request : Request}
    (hextract : Credential.extract request policy.tokenFrom = token) (w : World) :
    start base options call.settings { call.inquiry with request } call.session w =
      start base options call.settings call.inquiry call.session w := by
  have hasks : Call.Asks { call with inquiry := { call.inquiry with request } } policy schedule
      token := ⟨h.configured, hextract, h.ne_nil⟩
  rw [Call.start_of_asks h]
  exact Call.start_of_asks hasks base w

/-- **An inquiry says what it should and nothing else.**  Whatever a call sends in a step of any
run, with any settings, any token and whatever the peer answers, is the token request of its own
client or an inquiry: a POST to the configured endpoint, whose body is read back as exactly the
token, and the required scopes when the strategy is none, and whose headers are, each once, the
last of each configured name in byte order, the content type of a form in place of any that is
configured, and the client's own authorization in place of any that is configured.  Of the
request that the call is about only the token matters. -/
theorem inquiries_are_complete (peer : Peer) (options : Options) (calls : List Call)
    {world : World} (hgrants : world.grants = []) (hpool : world.pool = [])
    {t t' : Timeline (Pending (wire peer)) Judgement} {label : Option Ticket}
    (hreach : Timeline.Reaches
      (Timeline.ofJobs world (calls.map (Call.job (wire peer) options))) t)
    (hnext : Timeline.Next label t t') :
    Sends (fun sent exchange => ∃ i call policy schedule token, label = some i ∧
        calls[i]? = some call ∧ call.Asks policy schedule token ∧
        Says peer options policy schedule token sent exchange)
      t.world.sent t'.world.sent ∧
    ∀ call policy schedule token, Call.Asks call policy schedule token →
      (policy.headers.Pairwise fun header other => Bytes.le header.1 other.1 = true) ∧
      ∀ base request w, Credential.extract request policy.tokenFrom = token →
        start base options call.settings { call.inquiry with request } call.session w =
          start base options call.settings call.inquiry call.session w := by
  constructor
  · have horder := ((inOrder_ofJobs peer options calls hgrants hpool).reaches hreach).1
    refine (horder.next hnext).2.sent.mono ?_
    rintro sent exchange ⟨i, call, hlabel, hcall, policy, schedule, token, hasks, hown⟩
    exact ⟨i, call, policy, schedule, token, hlabel, hcall, hasks, hown.says⟩
  · intro call policy schedule token hasks
    refine ⟨policy_headers_sorted hasks.configured, ?_⟩
    intro base request w hextract
    exact start_of_extract hasks hextract w

/-! ## A token that looks like a field -/

/-- A call about a token with separators in it, whose settings name a content type and an
authorization in spellings of their own. -/
def forgingCall : Call where
  settings := [(identifier, {
    enabled := true
    defaults := [
      (utf8 "introspection_url", .text (utf8 "http://i/")),
      (utf8 "introspection_request_headers", .object [
        (utf8 "content-TYPE", .text (utf8 "text/plain")),
        (utf8 "AUTHORIZATION", .text (utf8 "Basic eA==")),
        (utf8 "x-Mode", .text (utf8 "late")),
        (utf8 "X-mode", .text (utf8 "early"))]),
      (utf8 "pre_authorization", .object [
        (utf8 "enabled", .bool true),
        (utf8 "client_id", .text (utf8 "c")),
        (utf8 "client_secret", .text (utf8 "s")),
        (utf8 "token_url", .text (utf8 "http://t/"))])] })]
  inquiry := {
    request := { headers := [(utf8 "Authorization", utf8 "Bearer x&scope=%+")] }
    ruleId := []
    config := [] }
  session := {}
  begins := 0

/-- When the inquiry of the call bears the client's token and is about to be sent. -/
def forging : Timeline (Pending (wire issuingPeer)) Judgement :=
  (Timeline.ofJobs {} ([forgingCall].map (Call.job (wire issuingPeer) {}))).run 2

def forged : Timeline (Pending (wire issuingPeer)) Judgement := (forging.leaveLine 0).takeTurn 0

/-- The peer gets the token as one field, and one header of each name. -/
theorem forged_field_encoded :
    (forged.world.sent.getLast?.map fun exchange =>
        (exchange.request.body, exchange.request.headers)) =
      some (utf8 "token=x%26scope%3D%25%2B&scope=", [
        (utf8 "x-Mode", utf8 "late"),
        (utf8 "Content-Type", formMediaType),
        (utf8 "Authorization", utf8 "Bearer t")]) ∧
    Sends (fun sent exchange => ∃ i call policy schedule token, some 0 = some i ∧
        [forgingCall][i]? = some call ∧ call.Asks policy schedule token ∧
        Says issuingPeer {} policy schedule token sent exchange)
      forging.world.sent forged.world.sent := by
  have hmem : ⟨0, 1, 0⟩ ∈ Timeline.alarmsFrom 0 forging.jobs forging.slots := by decide +kernel
  have hdue : (0 : Instant) ≤ forging.world.now := by decide +kernel
  have hnext : Timeline.Next (some 0) forging forged := .alarm hmem hdue
  exact ⟨by decide +kernel, (inquiries_are_complete issuingPeer {} [forgingCall] rfl rfl
    (Timeline.run_reaches 2 _) hnext).1⟩

end Introspection

end BearerAuth
