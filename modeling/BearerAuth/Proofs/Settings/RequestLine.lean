import BearerAuth.Proofs.Introspection.Headers
import BearerAuth.Proofs.Settings.Admissible
import BearerAuth.Proofs.Url.Reading

/-!
# What a policy puts into request lines

A request line is the method, the target and the version, with a space between
each and the next and a line break behind.  The targets are those of the two
endpoints of a policy.  Headers are checked for line breaks when they are
decoded, and authorities for white space when they are read; the path and the
query of a URL are not.  So a target splits its line just when the path does
that was configured (`targets_as_configured`).
-/

namespace BearerAuth

namespace Url

/-- A byte that ends a request line or a word of it: white space, or NUL. -/
def splitsLine (b : UInt8) : Bool := isGap b || b == 0

theorem Parts.mem_target_iff {parts : Parts} {b : UInt8} (h : splitsLine b = true) :
    b ∈ parts.target ↔ b ∈ parts.path := by
  have hslash : b ≠ Ascii.slash := by
    rintro rfl
    exact absurd h (by decide)
  rw [Parts.target]
  split
  · exact Iff.rfl
  · simp [hslash]

end Url

namespace Settings

/-- The endpoints that requests of a policy go to, with the texts they were read from. -/
inductive Endpoint (policy : Policy) : Bytes → Url → Prop
  | introspection : Endpoint policy policy.introspectionUrl policy.endpoint
  | token {pre : PreAuthorization} {url : Url} (hpre : policy.preAuthorization = some pre)
      (henabled : pre.endpoint = some url) : Endpoint policy pre.tokenUrl url

section

variable {policy : Policy} {text : Bytes} {url : Url}

theorem Endpoint.parse_eq {members : Json.Members} (h : Policy.ofMembers members = .ok policy)
    (hurl : Endpoint policy text url) : Url.parse text = .ok url := by
  have hreflects := (ofMembers_eq_ok.mp h).2
  cases hurl with
  | introspection => exact hreflects.endpoint
  | token hpre henabled =>
      have hne : policy.preAuthorization ≠ none := by simp [hpre]
      obtain ⟨_, -, inner, pre, -, hsome, hpre'⟩ := hreflects.preAuthorization.stands_of_ne hne
      obtain rfl := Option.some.inj (hpre.symm.trans hsome)
      exact hpre'.endpoint url henabled

end

/-- No header of a policy splits a line, and a target does just when the path does that was
configured: the URL text is cut at the authority and at the fragment, and the bytes between are
taken as they are. -/
theorem targets_as_configured {value : Json} {policy : Policy}
    (h : Policy.ofJson value = .ok policy) :
    (∀ header ∈ policy.headers,
      Headers.isName header.1 = true ∧ Headers.isValue header.2 = true) ∧
    ∀ text url, Endpoint policy text url → ∃ parts : Url.Parts,
      parts.Cut ∧ parts.text = text ∧ parts.target = url.target ∧
        ∀ b, Url.splitsLine b = true → (b ∈ url.target ↔ b ∈ parts.path) := by
  obtain ⟨members, rfl⟩ : ∃ members, value = .object members := by
    cases value with
    | object members => exact ⟨members, rfl⟩
    | _ => cases h
  refine ⟨policy_headers_safe h, ?_⟩
  intro text url hurl
  obtain ⟨authority, behind, hread⟩ := Url.exists_reading (hurl.parse_eq h)
  obtain ⟨parts, hcut, htext, htarget⟩ := hread.exists_parts
  refine ⟨parts, hcut, htext, htarget, ?_⟩
  intro b hb
  rw [← htarget]
  exact Url.Parts.mem_target_iff hb

/-- Settings with both endpoints, whose token URL has a space in its query and one behind it. -/
def spacedTokenUrl : Json :=
  .object
    [(utf8 "introspection_url", .text (utf8 "https://i.local/introspect")),
     (utf8 "introspection_request_headers", .object [(utf8 "X-Tenant", .text (utf8 "a b"))]),
     (utf8 "pre_authorization", .object
       [(utf8 "enabled", .bool true),
        (utf8 "client_id", .text (utf8 "c")),
        (utf8 "client_secret", .text (utf8 "s")),
        (utf8 "token_url", .text (utf8 "http://t.local:81?tenant=a b#top of page"))])]

/-- The target of the token request has the space of the query. -/
theorem space_of_query_in_target : ∃ policy, Policy.ofJson spacedTokenUrl = .ok policy ∧
    ∃ text url, Endpoint policy text url ∧ ∃ parts : Url.Parts,
      parts.Cut ∧ parts.text = text ∧ parts.target = url.target ∧
        Ascii.space ∈ url.target ∧ Ascii.space ∈ parts.path := by
  refine ⟨_, rfl, _, _, .token rfl rfl, ?_⟩
  have haccepted : Policy.ofJson spacedTokenUrl = .ok _ := rfl
  obtain ⟨-, htargets⟩ := targets_as_configured haccepted
  obtain ⟨parts, hcut, htext, htarget, hsplits⟩ := htargets _ _ (.token rfl rfl)
  have hspace : Ascii.space ∈ utf8 "/?tenant=a b" := by decide
  exact ⟨parts, hcut, htext, htarget, hspace, (hsplits Ascii.space rfl).mp hspace⟩

/-- Settings whose URL has another request line and a header in its path. -/
def brokenUrl : Json :=
  .object [(utf8 "introspection_url", .text (utf8 "http://h/i HTTP/1.1\r\nX-Evil: 1"))]

/-- A line break in a path is in the target. -/
theorem line_break_in_target : ∃ policy, Policy.ofJson brokenUrl = .ok policy ∧
    policy.endpoint.target = utf8 "/i HTTP/1.1\r\nX-Evil: 1" ∧
    ¬ ∀ b ∈ policy.endpoint.target, Url.splitsLine b = false := by
  refine ⟨_, rfl, rfl, ?_⟩
  intro hnone
  exact absurd (hnone Ascii.lineFeed (by decide)) (by decide)

end Settings

end BearerAuth
