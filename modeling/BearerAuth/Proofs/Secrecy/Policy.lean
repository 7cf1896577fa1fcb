import BearerAuth.Introspection.Authenticator
import BearerAuth.Proofs.Secrecy.Pairing
import BearerAuth.Proofs.Settings.Changes

/-!
# Policies of paired rules

Decoding never looks at a secret but to see whether it is empty.  So the texts of two rules that
are paired, laid over the same defaults, make up policies that are the same but for the secret, or
are refused with the same words (`policyFor_outcomes`).  The defaults have to be paired with
themselves: a rule of one run may spell out the secret that the defaults have, and then the rule of
the other run does so too.
-/

namespace BearerAuth

open Json Settings

namespace Pairing

/-! ## Outcomes -/

/-- Both succeed, with values that are paired, or both fail in the same way. -/
inductive Outcomes {ε α β : Type} (values : α → β → Prop) : Except ε α → Except ε β → Prop
  | ok {a : α} {b : β} : values a b → Outcomes values (.ok a) (.ok b)
  | error (fault : ε) : Outcomes values (.error fault) (.error fault)

section

variable {ε α β γ δ : Type} {values : α → β → Prop} {results : γ → δ → Prop}
  {outcome : Except ε α} {outcome' : Except ε β}

theorem Outcomes.bind {next : α → Except ε γ} {next' : β → Except ε δ}
    (h : Outcomes values outcome outcome')
    (hnext : ∀ a b, values a b → Outcomes results (next a) (next' b)) :
    Outcomes results (outcome >>= next) (outcome' >>= next') := by
  cases h with
  | ok hvalues => exact hnext _ _ hvalues
  | error fault => exact .error fault

theorem Outcomes.step {outcome outcome' : Except ε α} {next : α → Except ε γ}
    {next' : α → Except ε δ} (h : outcome = outcome')
    (hnext : ∀ a, Outcomes results (next a) (next' a)) :
    Outcomes results (outcome >>= next) (outcome' >>= next') := by
  subst h
  cases outcome with
  | ok a => exact hnext a
  | error fault => exact .error fault

theorem Outcomes.unless {condition condition' : Prop} [Decidable condition] [Decidable condition']
    {fault : ε} {next : PUnit → Except ε γ} {next' : PUnit → Except ε δ}
    (h : condition ↔ condition') (hnext : Outcomes results (next ⟨⟩) (next' ⟨⟩)) :
    Outcomes results (if condition then (throw fault : Except ε PUnit) >>= next else next ⟨⟩)
      (if condition' then (throw fault : Except ε PUnit) >>= next' else next' ⟨⟩) := by
  by_cases hcondition : condition
  · rw [if_pos hcondition, if_pos (h.mp hcondition)]
    exact .error fault
  · rw [if_neg hcondition, if_neg fun hcondition' => hcondition (h.mpr hcondition')]
    exact hnext

theorem Outcomes.map {f : α → γ} {f' : β → δ} (h : Outcomes values outcome outcome')
    (hf : ∀ a b, values a b → results (f a) (f' b)) :
    Outcomes results (outcome.map f) (outcome'.map f') := by
  cases h with
  | ok hvalues => exact .ok (hf _ _ hvalues)
  | error fault => exact .error fault

end

/-! ## Policies -/

/-- How a client authorizes itself is the same but for its secret. -/
structure PreAuthorizations (σ : Pairing) (pre pre' : PreAuthorization) : Prop where
  rest : pre' = { pre with clientSecret := pre'.clientSecret }
  secret : σ.Secrets pre.clientSecret pre'.clientSecret

structure Policies (σ : Pairing) (policy policy' : Policy) : Prop where
  rest : policy' = { policy with preAuthorization := policy'.preAuthorization }
  client : Option.Rel σ.PreAuthorizations policy.preAuthorization policy'.preAuthorization

/-! ## Decoding -/

section

variable {σ : Pairing} {key : Bytes} {values : Json → Json → Prop} {members members' : Members}

theorem Fields.onlyKnown_eq (h : Fields key values members members') (place : String)
    (known : List String) : onlyKnown place known members = onlyKnown place known members' := by
  have hfind : (members.find? fun member => !(known.map utf8).contains member.1).map Prod.fst =
      (members'.find? fun member => !(known.map utf8).contains member.1).map Prod.fst := by
    induction h with
    | nil => rfl
    | @cons a b rest rest' hab _ ih =>
        rw [List.find?_cons, List.find?_cons, hab.1]
        split
        · exact congrArg some hab.1
        · exact ih
  rw [onlyKnown, onlyKnown]
  cases hfound : members.find? fun member => !(known.map utf8).contains member.1 with
  | none =>
      rw [hfound] at hfind
      rw [Option.map_eq_none_iff.mp hfind.symm]
  | some member =>
      rw [hfound] at hfind
      obtain ⟨member', hfound', hkey⟩ := Option.map_eq_some_iff.mp hfind.symm
      rw [hfound']
      simp only [hkey]

theorem Fields.flag_eq (h : Fields key values members members') {place field : String}
    (hne : utf8 field ≠ key) : flag members place field = flag members' place field := by
  rw [flag, flag, h.present?_ne hne]

theorem Fields.text_eq (h : Fields key values members members') {place field : String}
    (hne : utf8 field ≠ key) :
    Settings.text members place field = Settings.text members' place field := by
  rw [Settings.text, Settings.text, text?, text?, h.present?_ne hne]

theorem Fields.texts_eq (h : Fields key values members members') {place field : String}
    (hne : utf8 field ≠ key) : texts members place field = texts members' place field := by
  rw [texts, texts, h.present?_ne hne]

theorem Fields.section?_eq {α : Type} (h : Fields key values members members') {field : String}
    {decode : Members → Except Settings.Fault α}
    (hne : utf8 field ≠ key) : section? members field decode = section? members' field decode := by
  rw [section?, section?, h.present?_ne hne]

theorem Fields.secret_outcomes {field : String}
    (h : Fields (utf8 field) (Strings σ.Secrets) members members') (place : String) :
    Outcomes σ.Secrets (Settings.text members place field)
      (Settings.text members' place field) := by
  rw [Settings.text, Settings.text, text?, text?]
  have hfound := h.present?_key Strings.keepsNull
  generalize members.present? (utf8 field) = found at hfound ⊢
  generalize members'.present? (utf8 field) = found' at hfound ⊢
  cases hfound with
  | none => exact .ok σ.noSecret
  | @some value value' hvalues =>
      cases hvalues with
      | text hpair => exact .ok hpair
      | same hnot =>
          cases value with
          | text s => exact absurd rfl (hnot s)
          | _ => exact .error _

theorem client_outcomes (h : Fields (utf8 "client_secret") (Strings σ.Secrets) members members') :
    Outcomes σ.PreAuthorizations (PreAuthorization.ofMembers members)
      (PreAuthorization.ofMembers members') := by
  rw [PreAuthorization.ofMembers, PreAuthorization.ofMembers]
  refine .step (h.onlyKnown_eq _ _) fun _ => ?_
  refine .step (h.flag_eq (by decide)) fun enabled => ?_
  refine .step (h.text_eq (by decide)) fun clientId => ?_
  refine .bind (h.secret_outcomes _) fun secret secret' hsecret => ?_
  refine .step (h.texts_eq (by decide)) fun scopes => ?_
  refine .step (h.text_eq (by decide)) fun tokenUrl => ?_
  cases enabled with
  | false => exact .ok ⟨rfl, hsecret⟩
  | true =>
      simp only [Bool.not_true, Bool.false_eq_true, if_false]
      -- the one look at the secret: an enabled client has to have one
      refine .unless Iff.rfl (.unless ?_ (.unless Iff.rfl (.step rfl fun endpoint => ?_)))
      · rw [hsecret.isEmpty_eq]
      · exact .ok ⟨rfl, hsecret⟩

theorem section_outcomes (h : Fields (utf8 "pre_authorization") σ.Clients members members') :
    Outcomes (Option.Rel σ.PreAuthorizations)
      (section? members "pre_authorization" PreAuthorization.ofMembers)
      (section? members' "pre_authorization" PreAuthorization.ofMembers) := by
  rw [section?, section?]
  have hfound := h.present?_key Objects.keepsNull
  generalize members.present? (utf8 "pre_authorization") = found at hfound ⊢
  generalize members'.present? (utf8 "pre_authorization") = found' at hfound ⊢
  cases hfound with
  | none => exact .ok .none
  | @some value value' hvalues =>
      cases hvalues with
      | object hfields => exact (client_outcomes hfields).map fun _ _ => .some
      | same hnot =>
          cases value with
          | object inner => exact absurd rfl (hnot inner)
          | _ => exact .error _

theorem policy_outcomes {value value' : Json} (h : σ.Rules value value') :
    Outcomes σ.Policies (Policy.ofJson value) (Policy.ofJson value') := by
  cases h with
  | same hnot =>
      cases value with
      | object members => exact absurd rfl (hnot members)
      | _ => exact .error _
  | object h =>
      rw [Policy.ofJson, Policy.ofJson, Policy.ofMembers, Policy.ofMembers]
      refine .step (h.onlyKnown_eq _ _) fun _ => ?_
      refine .step (h.texts_eq (by decide)) fun requiredScopes => ?_
      refine .step (h.texts_eq (by decide)) fun targetAudiences => ?_
      refine .step (h.texts_eq (by decide)) fun trustedIssuers => ?_
      refine .step (h.text_eq (by decide)) fun strategyName => ?_
      cases Scope.Strategy.ofName strategyName with
      | none => exact .error _
      | some _ =>
          refine .step rfl fun scopeStrategy => ?_
          refine .step (h.text_eq (by decide)) fun introspectionUrl => ?_
          refine .unless Iff.rfl ?_
          refine .step rfl fun endpoint => ?_
          refine .step (h.section?_eq (by decide)) fun tokenFrom => ?_
          refine .step (h.section?_eq (by decide)) fun headers => ?_
          refine .bind (section_outcomes h) fun pre pre' hpre => ?_
          refine .step (h.section?_eq (by decide)) fun retry => ?_
          exact .ok ⟨rfl, hpre⟩

end

section

variable {σ : Pairing} {policy policy' : Policy}

theorem Policies.preAuthorized_eq (h : σ.Policies policy policy') :
    policy.preAuthorized = policy'.preAuthorized := by
  rw [Policy.preAuthorized, Policy.preAuthorized]
  have hclient := h.client
  generalize policy.preAuthorization = client at hclient ⊢
  generalize policy'.preAuthorization = client' at hclient ⊢
  cases hclient with
  | none => rfl
  | some hpre =>
      rw [hpre.rest]
      rfl

theorem Policies.schedule_eq (h : σ.Policies policy policy') :
    policy.schedule = policy'.schedule := by
  rw [Policy.schedule, Policy.schedule, h.preAuthorized_eq, h.rest]

/-! ## The policy of a rule -/

/-- The defaults of introspection are paired with themselves. -/
def Settled (σ : Pairing) (settings : Store) : Prop :=
  σ.Rules (.object (settings.entry Introspection.identifier).defaults)
    (.object (settings.entry Introspection.identifier).defaults)

theorem effective_outcomes {settings : Store} {config config' : Bytes}
    (hsettings : σ.Settled settings) (h : Sources σ.Rules config config') :
    Outcomes σ.Rules (settings.effective Introspection.identifier config)
      (settings.effective Introspection.identifier config') := by
  obtain ⟨value, value', hvalue, hvalue', hrules⟩ | ⟨rfl, fault, hfault⟩ := h.parsed
  · by_cases hnull : value = .null
    · obtain rfl := hnull
      obtain rfl := (Objects.keepsNull hrules).mp rfl
      rw [Store.effective_null hvalue, Store.effective_null hvalue']
      exact .ok hsettings
    · have hnull' : value' ≠ .null := fun h => hnull ((Objects.keepsNull hrules).mpr h)
      rw [Store.effective_rule hvalue hnull, Store.effective_rule hvalue' hnull']
      exact .ok (Rules.merge hsettings hrules)
  · rw [Store.effective]
    by_cases hblank : Bytes.isBlankText config = true
    · simp only [hblank, if_true]
      exact .ok hsettings
    · simp only [hblank, hfault]
      exact .error _

theorem policyFor_outcomes {settings : Store} {config config' : Bytes}
    (hsettings : σ.Settled settings) (h : Sources σ.Rules config config') :
    Outcomes (fun found found' => σ.Policies found.1 found'.1 ∧ found.2 = found'.2)
      (Introspection.policyFor settings config) (Introspection.policyFor settings config') := by
  rw [Introspection.policyFor, Introspection.policyFor]
  have heffective := effective_outcomes hsettings h
  generalize settings.effective Introspection.identifier config = effective at heffective ⊢
  generalize settings.effective Introspection.identifier config' = effective' at heffective ⊢
  cases heffective with
  | error fault => exact .error _
  | @ok value value' hrules =>
      simp only
      have hdecoded := policy_outcomes hrules
      generalize Policy.ofJson value = decoded at hdecoded ⊢
      generalize Policy.ofJson value' = decoded' at hdecoded ⊢
      cases hdecoded with
      | error fault => exact .error _
      | @ok policy policy' hpolicies =>
          simp only [← hpolicies.schedule_eq]
          cases policy.schedule with
          | error fault => exact .error _
          | ok schedule => exact .ok ⟨hpolicies, rfl⟩

end

end Pairing

end BearerAuth
