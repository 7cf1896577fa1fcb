import BearerAuth.Proofs.Headers
import BearerAuth.Proofs.Introspection.Isolation

/-!
# The headers that calls send

A policy is only accepted with safe headers, and all that calls send besides are constants and
the tokens that the peer issued.  Nobody looks at the bytes of a token before it becomes a
header, so that is the one place where a header may be unsafe: whatever is sent, its headers
are safe but for the token of an authorization (`headers_safe_but_for_tokens`), and a token
that holds a line feed is sent with it (`line_feed_sent`).
-/

namespace BearerAuth

open Transport

/-! ## The headers of a policy -/

namespace Settings

theorem headersOf_safe {members : Json.Members} {headers : Headers}
    (h : headersOf members = .ok headers) : ∀ header ∈ headers, Headers.Safe header := by
  induction members generalizing headers with
  | nil =>
      obtain rfl := Except.ok.inj h
      exact nofun
  | cons member rest ih =>
      obtain ⟨name, value⟩ := member
      cases value with
      | text value =>
          rw [headersOf] at h
          split at h
          · cases h
          · next hname =>
              split at h
              · cases h
              · next hvalue =>
                  obtain ⟨others, hothers, rfl⟩ := map_eq_ok.mp h
                  intro header hheader
                  rcases List.mem_cons.mp hheader with rfl | hheader
                  · exact ⟨by simpa using hname, by simpa using hvalue⟩
                  · exact ih hothers header hheader
      | null => cases h
      | bool value => cases h
      | int value => cases h
      | double value => cases h
      | array items => cases h
      | object inner => cases h

theorem policy_headers_eq {members : Json.Members} {policy : Policy}
    (h : Policy.ofMembers members = .ok policy) :
    ∃ found, section? members "introspection_request_headers" headersOf = .ok found ∧
      policy.headers = Bytes.sortOn Prod.fst (found.getD []) := by
  simp only [Policy.ofMembers, bind_eq_ok] at h
  obtain ⟨-, -, requiredScopes, -, targetAudiences, -, trustedIssuers, -, strategyName, -, h⟩ := h
  split at h
  · simp only [bind_eq_ok, unless_eq_ok] at h
    obtain ⟨strategy, -, introspectionUrl, -, -, endpoint, -, tokenFrom, -, found, hfound,
      preAuthorization, -, retry, -, h⟩ := h
    obtain rfl := Except.ok.inj h
    exact ⟨found, hfound, rfl⟩
  · simp only [bind_eq_ok] at h
    obtain ⟨strategy, hstrategy, -⟩ := h
    cases hstrategy

theorem policy_headers_safe {members : Json.Members} {policy : Policy}
    (h : Policy.ofMembers members = .ok policy) :
    ∀ header ∈ policy.headers, Headers.Safe header := by
  obtain ⟨found, hfound, hheaders⟩ := policy_headers_eq h
  intro header hheader
  rw [hheaders] at hheader
  have hmember : header ∈ found.getD [] := Bytes.mem_of_mem_sortOn hheader
  rw [section?] at hfound
  split at hfound
  · obtain rfl := Except.ok.inj hfound
    cases hmember
  · obtain ⟨headers, hdecoded, rfl⟩ := map_eq_ok.mp hfound
    exact headersOf_safe hdecoded header hmember
  · cases hfound

end Settings

/-! ## The headers of a request -/

theorem Credentials.request_safe (credentials : Credentials) :
    ∀ header ∈ credentials.request.headers, Headers.Safe header := by
  refine Headers.safe_set (Headers.safe_set nofun ?_ ?_) ?_ ?_
  · decide
  · decide
  · decide
  · decide

namespace Introspection

theorem inquiryRequest_safe {settings : Settings.Store} {config : Bytes}
    {policy : Settings.Policy} {schedule : Settings.Schedule}
    (h : policyFor settings config = .ok (policy, schedule)) (token : Bytes) :
    ∀ header ∈ (inquiryRequest policy token).headers, Headers.Safe header := by
  obtain ⟨members, hpolicy⟩ := policyFor_ok h
  refine Headers.safe_set (Headers.safe_setAll nofun (Settings.policy_headers_safe hpolicy)) ?_ ?_
  · decide
  · decide

/-- A header is safe, or it is the authorization with a token that the peer issued, and only
the token is to blame. -/
def SafeButForToken (peer : Peer) (sent : List Exchange) (header : Bytes × Bytes) : Prop :=
  Headers.Safe header ∨ ∃ credentials token, Issued peer sent credentials token ∧
    Headers.isValue token = false ∧
    header = (utf8 "Authorization", Bytes.trim (utf8 "Bearer " ++ token))

section

variable {peer : Peer} {options : Options} {call : Call} {sent : List Exchange}
  {exchange : Exchange}

theorem isName_authorization : Headers.isName (utf8 "Authorization") = true := by decide

theorem isValue_bearer (token : Bytes) :
    Headers.isValue (Bytes.trim (utf8 "Bearer " ++ token)) = Headers.isValue token := by
  have hbearer : Headers.isValue (utf8 "Bearer ") = true := by decide
  rw [Headers.isValue_trim]
  rw [Headers.isValue] at hbearer ⊢
  rw [List.all_append, hbearer, Bool.true_and, Headers.isValue]

theorem bearing_safeButForToken {request : Request} {credentials : Credentials} {token : Bytes}
    (h : ∀ header ∈ request.headers, Headers.Safe header)
    (hissued : Issued peer sent credentials token) :
    ∀ header ∈ (bearing token request).headers, SafeButForToken peer sent header := by
  intro header hheader
  rcases Headers.mem_set hheader with hold | rfl
  · exact .inl (h header hold)
  · cases hvalue : Headers.isValue token with
    | true => exact .inl ⟨isName_authorization, (isValue_bearer token).trans hvalue⟩
    | false => exact .inr ⟨credentials, token, hissued, hvalue, rfl⟩

theorem Call.Own.headers (h : call.Own peer options sent exchange) :
    ∀ header ∈ exchange.request.headers, SafeButForToken peer sent header := by
  obtain ⟨policy, schedule, token, hasks, hown⟩ := h
  have hinquiry := inquiryRequest_safe hasks.configured token
  rw [Introspection.Own] at hown
  split at hown
  · obtain ⟨-, hrequest⟩ := hown
    rw [hrequest]
    exact fun header hheader => .inl (hinquiry header hheader)
  · next plan _ =>
      rcases hown with ⟨-, hrequest⟩ | ⟨-, own, hissued, hrequest⟩
      · rw [hrequest]
        exact fun header hheader =>
          .inl ((plan.credentials options).request_safe header hheader)
      · rw [hrequest]
        exact bearing_safeButForToken hinquiry hissued

/-- Whatever is sent in any number of steps is some call's own. -/
theorem InOrder.sends {calls : List Call} {t t' : Timeline (Pending (wire peer)) Judgement}
    (h : InOrder peer options calls t) (hreach : Timeline.Reaches t t') :
    Sends (fun sent exchange => ∃ call : Call, call.Own peer options sent exchange)
      t.world.sent t'.world.sent := by
  refine (hreach.invariant (I := fun t' => InOrder peer options calls t' ∧
    Sends (fun sent exchange => ∃ call : Call, call.Own peer options sent exchange)
      t.world.sent t'.world.sent) ⟨h, .refl _⟩ ?_).2
  rintro label t₁ t₂ ⟨horder, hsends⟩ hnext
  obtain ⟨horder', hmoves⟩ := horder.next hnext
  refine ⟨horder', hsends.trans (hmoves.sent.mono ?_)⟩
  rintro sent exchange ⟨i, call, -, -, hown⟩
  exact ⟨call, hown⟩

end

theorem inOrder_ofJobs (peer : Peer) (options : Options) (calls : List Call) {world : World}
    (hgrants : world.grants = []) (hpool : world.pool = []) :
    InOrder peer options calls
      (Timeline.ofJobs world (calls.map (Call.job (wire peer) options))) := by
  refine ⟨rfl, Timeline.sound_ofJobs (calls_guaranteed peer options calls) ⟨⟨?_, ?_⟩, ?_, ?_⟩⟩
  · simp [hgrants]
  · simp [hgrants]
  · simp [hpool]
  · simp [hpool]

/-- **Only a token can make a header unsafe.**  Whatever calls send in any number of steps, with
any settings and inbound requests and whatever the peer answers: each header has a valid name,
and a value without line breaks and NUL, unless it is the authorization with a token that the
peer issued before and that itself holds such a byte.  So when the peer issues no such token,
all headers are safe. -/
theorem headers_safe_but_for_tokens (peer : Peer) (options : Options) (calls : List Call)
    {world : World} (hgrants : world.grants = []) (hpool : world.pool = [])
    {t : Timeline (Pending (wire peer)) Judgement}
    (hreach : Timeline.Reaches
      (Timeline.ofJobs world (calls.map (Call.job (wire peer) options))) t) :
    Sends (fun sent exchange => ∀ header ∈ exchange.request.headers,
      Headers.isName header.1 = true ∧ SafeButForToken peer sent header)
      world.sent t.world.sent ∧
    ((∀ sent credentials token, Issued peer sent credentials token →
        Headers.isValue token = true) →
      Sends (fun _ exchange => ∀ header ∈ exchange.request.headers, Headers.Safe header)
        world.sent t.world.sent) := by
  have hsends := (inOrder_ofJobs peer options calls hgrants hpool).sends hreach
  constructor
  · refine hsends.mono ?_
    rintro sent exchange ⟨call, hown⟩ header hheader
    have hsafe := hown.headers header hheader
    refine ⟨?_, hsafe⟩
    rcases hsafe with hsafe | ⟨credentials, token, -, -, rfl⟩
    · exact hsafe.1
    · exact isName_authorization
  · intro htokens
    refine hsends.mono ?_
    rintro sent exchange ⟨call, hown⟩ header hheader
    rcases hown.headers header hheader with hsafe | ⟨credentials, token, hissued, hvalue, -⟩
    · exact hsafe
    · rw [htokens sent credentials token hissued] at hvalue
      cases hvalue

/-- A peer whose tokens hold a line feed, and the text of a header behind it. -/
def breakingPeer : Peer := fun _ _ =>
  .ok { reply := .ok { body := utf8 "\x7b\"access_token\":\"a\\nX-Injected: 1\"\x7d" } }

/-- A call that fetches a token of this peer and sends its inquiry with it. -/
def brokenCall : Timeline (Pending (wire breakingPeer)) Judgement :=
  Timeline.ofJobs {} ([clientCall "a"].map (Call.job (wire breakingPeer) {}))

/-- The inquiry of the call has a header with a line feed. -/
theorem line_feed_sent :
    ∃ exchange ∈ (brokenCall.run 3).world.sent, ∃ header ∈ exchange.request.headers,
      Headers.isValue header.2 = false ∧ Ascii.lineFeed ∈ header.2 := by
  decide +kernel

/-- Nothing else is wrong with what the call sends. -/
theorem broken_call_safe_but_for_token :
    (brokenCall.run 3).world.sent.length = 2 ∧
      Sends (fun sent exchange => ∀ header ∈ exchange.request.headers,
        Headers.isName header.1 = true ∧ SafeButForToken breakingPeer sent header)
        [] (brokenCall.run 3).world.sent :=
  ⟨by decide +kernel, (headers_safe_but_for_tokens breakingPeer {} [clientCall "a"] rfl rfl
    (Timeline.run_reaches 3 brokenCall)).1⟩

end Introspection

end BearerAuth
