import BearerAuth.Introspection.Authenticator

/-!
# What a verdict has to be

The authenticator reads an answer into a structure and holds that against the
policy, check by check.  Here the same decision is written down without either:
`requirements` lists what a reply has to meet, each item read off the members
of the object in the body, and the first that is not met gives the refusal.
`reference` puts the settings and the request before it.  Details are left out:
a `Ruling` is a verdict without its text.
-/

namespace BearerAuth

inductive Ruling where
  | success
  | notResponsible
  | refused (refusal : Refusal)
  deriving DecidableEq, Repr

/-- What a verdict rules. -/
def Verdict.ruling : Verdict → Ruling
  | .success => .success
  | .notResponsible => .notResponsible
  | .failure refusal _ => .refused refusal

namespace Introspection

/-! ## Members of an answer -/

/-- The members of the object that the body of a reply holds. -/
def objectOf : Transport.Reply → Option Json.Members
  | .ok response => match Json.parse response.body with
    | .ok (.object members) => some members
    | _ => none
  | .error _ => none

def fits (members : Json.Members) (kind : Json → Bool) (field : String) : Bool :=
  (members.present? (utf8 field)).all kind

def isText : Json → Bool
  | .text _ => true
  | _ => false

def isBool : Json → Bool
  | .bool _ => true
  | _ => false

/-- The value can name audiences: a string, or an array of strings. -/
def isAudience : Json → Bool
  | .text _ => true
  | .array items => items.all isText
  | _ => false

/-- The members of an answer that are strings. -/
def textFields : List String := ["sub", "username", "token_type", "iss", "client_id", "scope"]

/-- Every member of an answer is of its type. -/
def wellTyped (members : Json.Members) : Bool :=
  fits members isBool "active" && fits members Json.isObject "ext" &&
    fits members isAudience "aud" && textFields.all (fits members isText)

def textOf? : Json → Option Bytes
  | .text s => some s
  | _ => none

/-- The string of a member, empty when there is none. -/
def textAt (members : Json.Members) (field : String) : Bytes :=
  ((members.present? (utf8 field)).bind textOf?).getD []

/-- The answer says that the token is active. -/
def saysActive (members : Json.Members) : Bool :=
  match members.present? (utf8 "active") with
  | some (.bool b) => b
  | _ => false

/-- The audiences that the answer names. -/
def audiencesOf (members : Json.Members) : List Bytes :=
  match members.present? (utf8 "aud") with
  | some (.text s) => [s]
  | some (.array items) => items.filterMap textOf?
  | _ => []

/-! ## Requirements -/

/-- A requirement on a reply, with the refusal of one that does not meet it. -/
structure Requirement where
  refusal : Refusal
  met : Bool
  deriving DecidableEq, Repr

/-- Grants cover a required scope, under a strategy that matches scopes. -/
def granted (strategy : Scope.Strategy) (grants : List Bytes) (required : Bytes) : Bool :=
  match strategy.matcher? with
  | some covers => covers grants required
  | none => false

/-- The reply is a response of status 200. -/
def isOk : Transport.Reply → Bool
  | .ok response => response.status == 200
  | .error _ => false

/-- What a policy requires of a reply, in the order in which it decides. -/
def requirements (policy : Settings.Policy) (reply : Transport.Reply) : List Requirement :=
  let members := (objectOf reply).getD []
  [⟨.transport, isOk reply⟩,
   ⟨.decode, (objectOf reply).any wellTyped⟩,
   ⟨.forbidden, [[], utf8 "access_token"].contains (textAt members "token_type")⟩,
   ⟨.unauthorized, saysActive members⟩,
   ⟨.forbidden, policy.targetAudiences.all (audiencesOf members).contains⟩,
   ⟨.forbidden, policy.trustedIssuers.isEmpty ||
      policy.trustedIssuers.contains (textAt members "iss")⟩,
   ⟨.forbidden, policy.scopeStrategy == .none ||
      policy.requiredScopes.all (granted policy.scopeStrategy
        (Bytes.split Ascii.space (textAt members "scope")))⟩]

/-- The ruling under requirements: the first that is not met refuses. -/
def rule : List Requirement → Ruling
  | [] => .success
  | requirement :: rest => if requirement.met then rule rest else .refused requirement.refusal

theorem rule_eq_success_iff (requirements : List Requirement) :
    rule requirements = .success ↔ ∀ requirement ∈ requirements, requirement.met = true := by
  induction requirements with
  | nil => simp [rule]
  | cons requirement rest ih =>
      cases h : requirement.met with
      | true => simp [rule, h, ih]
      | false => simp [rule, h]

/-- The ruling on a request: settings first, then the token, then the reply to
the inquiry about it.  There is none as long as there is no reply. -/
def reference (settings : Settings.Store) (inquiry : Inquiry)
    (exchange : Settings.Policy → Settings.Schedule → Bytes → Option Transport.Reply) :
    Option Ruling :=
  match settings.effective identifier inquiry.config with
  | .error _ => some (.refused .misconfigured)
  | .ok value => match Settings.Policy.ofJson value with
    | .error _ => some (.refused .misconfigured)
    | .ok policy => match policy.schedule with
      | .error _ => some (.refused .misconfigured)
      | .ok schedule => match Credential.extract inquiry.request policy.tokenFrom with
        | [] => some .notResponsible
        | b :: rest => (exchange policy schedule (b :: rest)).map fun reply =>
            rule (requirements policy reply)

theorem reference_eq (settings : Settings.Store) (inquiry : Inquiry)
    (exchange : Settings.Policy → Settings.Schedule → Bytes → Option Transport.Reply) :
    reference settings inquiry exchange = match policyFor settings inquiry.config with
      | .error _ => some (.refused .misconfigured)
      | .ok (policy, schedule) => match Credential.extract inquiry.request policy.tokenFrom with
        | [] => some .notResponsible
        | b :: rest => (exchange policy schedule (b :: rest)).map fun reply =>
            rule (requirements policy reply) := by
  rw [reference, policyFor]
  cases settings.effective identifier inquiry.config with
  | error fault => rfl
  | ok value =>
      cases hpolicy : Settings.Policy.ofJson value with
      | error fault => simp [hpolicy]
      | ok policy => cases hschedule : policy.schedule <;> simp [hpolicy, hschedule]

/-- The reference accepts exactly what has usable settings, a token, and a
reply that meets every requirement. -/
theorem reference_eq_success_iff (settings : Settings.Store) (inquiry : Inquiry)
    (exchange : Settings.Policy → Settings.Schedule → Bytes → Option Transport.Reply) :
    reference settings inquiry exchange = some .success ↔
      ∃ policy schedule reply, policyFor settings inquiry.config = .ok (policy, schedule) ∧
        Credential.extract inquiry.request policy.tokenFrom ≠ [] ∧
        exchange policy schedule (Credential.extract inquiry.request policy.tokenFrom) =
          some reply ∧
        ∀ requirement ∈ requirements policy reply, requirement.met = true := by
  rw [reference_eq]
  constructor
  · intro h
    cases hpolicy : policyFor settings inquiry.config with
    | error rejection => simp [hpolicy] at h
    | ok found =>
        obtain ⟨policy, schedule⟩ := found
        cases htoken : Credential.extract inquiry.request policy.tokenFrom with
        | nil => simp [hpolicy, htoken] at h
        | cons b rest =>
            simp only [hpolicy, htoken, Option.map_eq_some_iff] at h
            obtain ⟨reply, hreply, hrule⟩ := h
            exact ⟨policy, schedule, reply, rfl, by simp [htoken], by rw [htoken]; exact hreply,
              (rule_eq_success_iff _).mp hrule⟩
  · rintro ⟨policy, schedule, reply, hpolicy, htoken, hreply, hmet⟩
    cases hextract : Credential.extract inquiry.request policy.tokenFrom with
    | nil => exact absurd hextract htoken
    | cons b rest =>
        rw [hextract] at hreply
        simp [hpolicy, hextract, hreply, (rule_eq_success_iff _).mpr hmet]

end Introspection

end BearerAuth
