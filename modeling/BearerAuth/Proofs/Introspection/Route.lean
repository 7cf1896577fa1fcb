import BearerAuth.Introspection.Authenticator
import BearerAuth.Proofs.Grant.Key
import BearerAuth.Proofs.Grant.Pool
import BearerAuth.Proofs.Grant.Promise

/-!
# What a route is built from

A policy that asks for pre-authorization has a `Blueprint`: all that a transport
with a token of its own is built from.  A route is `BuiltFrom` it when the line
has its schedule and the grant its credentials.  The pool files each line under
the key of its blueprint and no grant under two keys (`Kept`), so the route that
is looked up for a policy is always built from that policy's own blueprint
(`routeFor_builtFrom`), and an exchange on it sends what the policy has sent and
nothing else (`route_honours`).
-/

namespace BearerAuth

open Transport

namespace Introspection

/-! ## Blueprints -/

/-- All that a transport with a token of its own is built from. -/
structure Blueprint where
  endpoint : Url
  clientId : Bytes
  clientSecret : Bytes
  scopes : List Bytes
  schedule : Settings.Schedule
  deriving DecidableEq, Repr

/-- The blueprint of a policy, when it asks for pre-authorization. -/
def blueprint? (policy : Settings.Policy) (schedule : Settings.Schedule) : Option Blueprint :=
  match policy.preAuthorization with
  | none => none
  | some pre => match pre.endpoint with
    | none => none
    | some endpoint => some ⟨endpoint, pre.clientId, pre.clientSecret, pre.scopes, schedule⟩

namespace Blueprint

/-- The pre-authorization that a blueprint was drawn from, as far as it matters. -/
def pre (plan : Blueprint) : Settings.PreAuthorization :=
  { clientId := plan.clientId, clientSecret := plan.clientSecret, scopes := plan.scopes }

def credentials (options : Options) (plan : Blueprint) : Credentials :=
  Introspection.credentials options plan.pre plan.endpoint

def key (plan : Blueprint) : Bytes := Pool.key plan.endpoint plan.pre plan.schedule

theorem key_inj {plan plan' : Blueprint} (hurl : plan.endpoint.WellFormed)
    (hurl' : plan'.endpoint.WellFormed) (h : plan.key = plan'.key) : plan = plan' := by
  obtain ⟨hendpoint, hid, hsecret, hscopes, hschedule⟩ := Pool.key_injective hurl hurl' h
  cases plan
  cases plan'
  simp only [pre] at hendpoint hid hsecret hscopes hschedule
  simp [hendpoint, hid, hsecret, hscopes, hschedule]

end Blueprint

/-! ## Token endpoints are read from texts -/

theorem endpoint_of_preAuthorization {members : Json.Members} {pre : Settings.PreAuthorization}
    {endpoint : Url} (h : Settings.PreAuthorization.ofMembers members = .ok pre)
    (hendpoint : pre.endpoint = some endpoint) : Url.parse pre.tokenUrl = .ok endpoint := by
  simp only [Settings.PreAuthorization.ofMembers, bind_eq_ok] at h
  obtain ⟨-, -, enabled, -, clientId, -, clientSecret, -, scopes, -, tokenUrl, -, h⟩ := h
  split at h
  · obtain rfl := Except.ok.inj h
    cases hendpoint
  · simp only [unless_eq_ok, bind_eq_ok] at h
    obtain ⟨-, -, -, endpoint', hurl, h⟩ := h
    obtain rfl := Except.ok.inj h
    obtain rfl := Option.some.inj hendpoint
    rw [Settings.url] at hurl
    split at hurl
    · next url hparse => exact Except.ok.inj hurl ▸ hparse
    · cases hurl

theorem preAuthorization_of_policy {members : Json.Members} {policy : Settings.Policy}
    {pre : Settings.PreAuthorization} (h : Settings.Policy.ofMembers members = .ok policy)
    (hpre : policy.preAuthorization = some pre) :
    ∃ inner, Settings.PreAuthorization.ofMembers inner = .ok pre := by
  simp only [Settings.Policy.ofMembers, bind_eq_ok] at h
  obtain ⟨-, -, requiredScopes, -, targetAudiences, -, trustedIssuers, -, strategyName, -, h⟩ := h
  split at h
  · simp only [bind_eq_ok, unless_eq_ok] at h
    obtain ⟨strategy, -, introspectionUrl, -, -, endpoint, -, tokenFrom, -, headers, -, found,
      hfound, retry, -, h⟩ := h
    obtain rfl := Except.ok.inj h
    obtain rfl : found = some pre := hpre
    rw [Settings.section?] at hfound
    split at hfound
    · cases hfound
    · next inner _ =>
        obtain ⟨pre', hpre', heq⟩ := map_eq_ok.mp hfound
        exact ⟨inner, Option.some.inj heq ▸ hpre'⟩
    · cases hfound
  · simp only [bind_eq_ok] at h
    obtain ⟨strategy, hstrategy, -⟩ := h
    cases hstrategy

theorem policyFor_eq_ok {settings : Settings.Store} {config : Bytes} {policy : Settings.Policy}
    {schedule : Settings.Schedule} :
    policyFor settings config = .ok (policy, schedule) ↔
      ∃ value, settings.effective identifier config = .ok value ∧
        Settings.Policy.ofJson value = .ok policy ∧ policy.schedule = .ok schedule := by
  constructor
  · intro h
    rw [policyFor] at h
    split at h
    · cases h
    · next value hvalue =>
        split at h
        · cases h
        · next hpolicy =>
            split at h
            · cases h
            · next hschedule =>
                obtain ⟨rfl, rfl⟩ := Prod.mk.inj (Except.ok.inj h)
                exact ⟨value, hvalue, hpolicy, hschedule⟩
  · rintro ⟨value, hvalue, hpolicy, hschedule⟩
    simp only [policyFor, hvalue, hpolicy, hschedule]

theorem policyFor_ok {settings : Settings.Store} {config : Bytes} {policy : Settings.Policy}
    {schedule : Settings.Schedule} (h : policyFor settings config = .ok (policy, schedule)) :
    ∃ members, Settings.Policy.ofMembers members = .ok policy := by
  obtain ⟨value, -, hpolicy, -⟩ := policyFor_eq_ok.mp h
  cases value with
  | object members => exact ⟨members, hpolicy⟩
  | _ => cases hpolicy

theorem blueprint?_eq_some {policy : Settings.Policy} {schedule : Settings.Schedule}
    {plan : Blueprint} (h : blueprint? policy schedule = some plan) :
    ∃ pre endpoint, policy.preAuthorization = some pre ∧ pre.endpoint = some endpoint ∧
      plan = ⟨endpoint, pre.clientId, pre.clientSecret, pre.scopes, schedule⟩ := by
  rw [blueprint?] at h
  split at h
  · cases h
  · next pre hpre =>
      split at h
      · cases h
      · next endpoint hendpoint => exact ⟨pre, endpoint, hpre, hendpoint, (Option.some.inj h).symm⟩

theorem blueprint_wellFormed {settings : Settings.Store} {config : Bytes}
    {policy : Settings.Policy} {schedule : Settings.Schedule} {plan : Blueprint}
    (h : policyFor settings config = .ok (policy, schedule))
    (hplan : blueprint? policy schedule = some plan) : plan.endpoint.WellFormed := by
  obtain ⟨members, hpolicy⟩ := policyFor_ok h
  obtain ⟨pre, endpoint, hpre, hendpoint, rfl⟩ := blueprint?_eq_some hplan
  obtain ⟨inner, hinner⟩ := preAuthorization_of_policy hpolicy hpre
  exact Url.wellFormed_of_parse (endpoint_of_preAuthorization hinner hendpoint)

/-! ## The pool -/

/-- Grants are sound, each line of the pool is filed under the key of the blueprint
that it was built from, and no grant is in two lines. -/
structure Kept (peer : Peer) (options : Options) (w : World) : Prop where
  sound : GrantsSound peer w
  built : ∀ {entry}, entry ∈ w.pool → ∃ plan : Blueprint, plan.endpoint.WellFormed ∧
    entry.1 = plan.key ∧ entry.2.schedule = plan.schedule ∧
    HasGrant w entry.2.grant (plan.credentials options)
  apart : (w.pool.map fun entry => entry.2.grant).Nodup

/-- What a stretch of a call may do to a world: it sends what is its own, and the
pool gets no line over a grant that was there before. -/
structure Moves (peer : Peer) (options : Options) (own : List Exchange → Exchange → Prop)
    (w w' : World) : Prop extends World.Grows own w w' where
  kept : Kept peer options w'
  length : w.grants.length ≤ w'.grants.length
  pool : ∀ {entry}, entry ∈ w'.pool → entry.2.grant < w.grants.length → entry ∈ w.pool

section

variable {peer : Peer} {options : Options} {own : List Exchange → Exchange → Prop}
  {w w' w'' : World}

theorem Kept.extends (h : Kept peer options w) (hext : Extends peer own w w') :
    Kept peer options w' where
  sound := hext.sound
  built := fun hentry => by
    obtain ⟨plan, hurl, hkey, hschedule, hgrant⟩ := h.built (hext.pool ▸ hentry)
    exact ⟨plan, hurl, hkey, hschedule, hext.hasGrant hgrant⟩
  apart := hext.pool ▸ h.apart

theorem Moves.of_extends (h : Kept peer options w) (hext : Extends peer own w w') :
    Moves peer options own w w' where
  toGrows := hext.toGrows
  kept := h.extends hext
  length := Nat.le_of_eq hext.length.symm
  pool := fun hentry _ => hext.pool ▸ hentry

theorem Moves.refl (h : Kept peer options w) : Moves peer options own w w :=
  .of_extends h (.refl h.sound)

theorem Moves.note (h : Kept peer options w) (level : Journal.Level) (message : Bytes) :
    Moves peer options own w (w.note level message) :=
  .of_extends h (.note h.sound level message)

theorem Moves.trans (h : Moves peer options own w w') (h' : Moves peer options own w' w'') :
    Moves peer options own w w'' where
  toGrows := h.toGrows.trans h'.toGrows
  kept := h'.kept
  length := Nat.le_trans h.length h'.length
  pool := fun hentry hlt => h.pool (h'.pool hentry (Nat.lt_of_lt_of_le hlt h.length)) hlt

theorem find?_mem {key : Bytes} {line : Line} {pool : Pool} (h : pool.find? key = some line) :
    (key, line) ∈ pool := by
  induction pool with
  | nil => cases h
  | cons entry rest ih =>
      rw [Pool.find?] at h
      split at h
      · next heq =>
          obtain rfl := Option.some.inj h
          exact heq ▸ List.mem_cons_self
      · exact List.mem_cons_of_mem _ (ih h)

theorem addLine_moves (h : Kept peer options w) {endpoint : Url} (hurl : endpoint.WellFormed)
    (pre : Settings.PreAuthorization) (schedule : Settings.Schedule) :
    Moves peer options own w (addLine options pre endpoint schedule w).2 := by
  have hold {place : Nat} {g : Grant} (hg : w.grants[place]? = some g) :
      (addLine options pre endpoint schedule w).2.grants[place]? = some g := by
    have hlt := (List.getElem?_eq_some_iff.mp hg).1
    simp only [addLine, World.openGrant, World.note]
    rw [List.getElem?_append_left hlt]
    exact hg
  have hnew {place : Nat} {g : Grant}
      (hg : (addLine options pre endpoint schedule w).2.grants[place]? = some g) :
      w.grants[place]? = some g ∨ g = { credentials := credentials options pre endpoint } := by
    simp only [addLine, World.openGrant, World.note, List.getElem?_append] at hg
    split at hg
    · exact .inl hg
    · simp only [List.getElem?_singleton] at hg
      split at hg
      · exact .inr (Option.some.inj hg).symm
      · cases hg
  have hgrows : World.Grows own w (addLine options pre endpoint schedule w).2 :=
    ⟨.refl _, fun hg => ⟨_, hold hg, .refl _⟩⟩
  have hentry {entry : Bytes × Line}
      (hin : entry ∈ (addLine options pre endpoint schedule w).2.pool) :
      entry ∈ w.pool ∨
        entry = (Pool.key endpoint pre schedule, ⟨w.grants.length, schedule⟩) := Pool.mem_insert hin
  refine ⟨hgrows, ⟨⟨?_, ?_⟩, ?_, ?_⟩, ?_, ?_⟩
  · intro place g hg htoken
    rcases hnew hg with hg | rfl
    · exact h.sound.issued hg htoken
    · exact absurd rfl htoken
  · intro place g hg hne hnone
    rcases hnew hg with hg | rfl
    · exact h.sound.published hg hne hnone
    · exact absurd rfl hne
  · intro entry hin
    rcases hentry hin with hin | rfl
    · obtain ⟨plan, hplan, hkey, hschedule, hgrant⟩ := h.built hin
      exact ⟨plan, hplan, hkey, hschedule, hgrows.hasGrant hgrant⟩
    · refine ⟨⟨endpoint, pre.clientId, pre.clientSecret, pre.scopes, schedule⟩, hurl, rfl, rfl, ?_⟩
      exact ⟨{ credentials := credentials options pre endpoint },
        by simp [addLine, World.openGrant, World.note], rfl⟩
  · have hroom := Pool.makeRoom_sublist options.capacity w.filed w.pool
    simp only [addLine, World.openGrant, World.note, Pool.insert, List.map_append, List.map_cons,
      List.map_nil]
    refine List.nodup_append.mpr ⟨(hroom.map _).nodup h.apart, by simp, ?_⟩
    intro place hplace place' hplace' heq
    obtain ⟨entry, hin, rfl⟩ := List.mem_map.mp hplace
    obtain ⟨plan, -, -, -, hgrant⟩ := h.built (hroom.subset hin)
    have hlt := hgrant.lt
    simp only [List.mem_singleton] at hplace'
    omega
  · simp [addLine, World.openGrant, World.note]
  · intro entry hin hlt
    rcases hentry hin with hin | rfl
    · exact hin
    · exact absurd hlt (Nat.lt_irrefl _)

theorem lineFor_moves (h : Kept peer options w) {endpoint : Url} (hurl : endpoint.WellFormed)
    (pre : Settings.PreAuthorization) (schedule : Settings.Schedule) :
    Moves peer options own w (lineFor options pre endpoint schedule w).2 ∧
      (Pool.key endpoint pre schedule, (lineFor options pre endpoint schedule w).1) ∈
        (lineFor options pre endpoint schedule w).2.pool := by
  rw [lineFor]
  split
  · next line hline => exact ⟨.refl h, find?_mem hline⟩
  · refine ⟨addLine_moves h hurl pre schedule, ?_⟩
    simp [addLine, World.openGrant, World.note, Pool.insert]

/-! ## The route of a policy -/

/-- A direct route is for policies without a blueprint; the line of any other has the
schedule of the blueprint, and its grant the credentials. -/
def Route.BuiltFrom (options : Options) (plan : Option Blueprint) (w : World) : Route → Prop
  | .direct => plan = none
  | .preAuthorized line => ∃ own, plan = some own ∧ line.schedule = own.schedule ∧
      HasGrant w line.grant (own.credentials options)

/-- A line that is filed under the key of a blueprint was built from it. -/
theorem Kept.line (h : Kept peer options w) {plan : Blueprint} (hurl : plan.endpoint.WellFormed)
    {line : Line} (hin : (plan.key, line) ∈ w.pool) :
    line.schedule = plan.schedule ∧ HasGrant w line.grant (plan.credentials options) := by
  obtain ⟨plan', hurl', hkey, hschedule, hgrant⟩ := h.built hin
  obtain rfl := Blueprint.key_inj hurl hurl' hkey
  exact ⟨hschedule, hgrant⟩

variable {policy : Settings.Policy} {schedule : Settings.Schedule}

theorem routeFor_none (hplan : blueprint? policy schedule = none) (w : World) :
    routeFor options policy schedule w = (.direct, w) := by
  rw [blueprint?] at hplan
  rw [routeFor]
  cases hpre : policy.preAuthorization with
  | none => rfl
  | some pre =>
      cases hendpoint : pre.endpoint with
      | none => simp [hendpoint]
      | some endpoint => simp [hpre, hendpoint] at hplan

theorem routeFor_some (h : Kept peer options w) {plan : Blueprint}
    (hplan : blueprint? policy schedule = some plan) (hurl : plan.endpoint.WellFormed) :
    ∃ line, (routeFor options policy schedule w).1 = .preAuthorized line ∧
      Moves peer options own w (routeFor options policy schedule w).2 ∧
      (plan.key, line) ∈ (routeFor options policy schedule w).2.pool := by
  obtain ⟨pre, endpoint, hpre, hendpoint, rfl⟩ := blueprint?_eq_some hplan
  have hline : Moves peer options own w (lineFor options pre endpoint schedule w).2 ∧ _ :=
    lineFor_moves h hurl pre schedule
  simp only [routeFor, hpre, hendpoint]
  exact ⟨_, rfl, hline⟩

theorem routeFor_builtFrom (h : Kept peer options w)
    (hurl : ∀ plan, blueprint? policy schedule = some plan → plan.endpoint.WellFormed) :
    Moves peer options own w (routeFor options policy schedule w).2 ∧
      (routeFor options policy schedule w).1.BuiltFrom options (blueprint? policy schedule)
        (routeFor options policy schedule w).2 := by
  cases hplan : blueprint? policy schedule with
  | none =>
      rw [routeFor_none hplan]
      exact ⟨.refl h, rfl⟩
  | some plan =>
      obtain ⟨line, hroute, (hmoves : Moves peer options own w _), hin⟩ :=
        routeFor_some h hplan (hurl plan hplan)
      rw [hroute]
      obtain ⟨hschedule, hgrant⟩ := hmoves.kept.line (hurl plan hplan) hin
      exact ⟨hmoves, plan, rfl, hschedule, hgrant⟩

end

end Introspection

end BearerAuth
