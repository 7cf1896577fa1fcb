import BearerAuth.Proofs.Chain.Dispatch

/-!
# Validation and execution agree

A rule is validated without a request: its handlers are looked up, and each authenticator tells
whether it is enabled and its configuration makes a policy.  A chain looks at the same things in
another order and afresh for every request: the chain asks whether the handler is enabled, and
the authenticator whether the configuration makes a policy.  For handlers that name
introspection, or nobody, both come to the same (`validation_agrees_with_runs`).
-/

namespace BearerAuth

open Stretch

namespace Introspection

/-! ## Refusals of introspection -/

theorem mem_of_rule_refused {requirements : List Requirement} {refusal : Refusal}
    (h : rule requirements = .refused refusal) :
    refusal ∈ requirements.map Requirement.refusal := by
  induction requirements with
  | nil => cases h
  | cons requirement rest ih =>
      rw [rule] at h
      split at h
      · exact List.mem_cons_of_mem _ (ih h)
      · exact Ruling.refused.inj h ▸ List.mem_cons_self

theorem ruling_ne_of_settings (policy : Settings.Policy) (reply : Transport.Reply) :
    rule (requirements policy reply) ≠ .refused .misconfigured ∧
      rule (requirements policy reply) ≠ .refused .notEnabled := by
  constructor
  · intro hrefused
    have hmem := mem_of_rule_refused hrefused
    simp [requirements] at hmem
  · intro hrefused
    have hmem := mem_of_rule_refused hrefused
    simp [requirements] at hmem

theorem is_eq_false {verdict : Verdict} {refusal : Refusal}
    (h : verdict.ruling ≠ .refused refusal) : verdict.is refusal = false := by
  cases verdict with
  | success => rfl
  | notResponsible => rfl
  | failure refusal' detail =>
      have hne : refusal' ≠ refusal := fun heq => h (heq ▸ rfl)
      simp [Verdict.is, hne]

/-- The judgement finds no fault with the settings. -/
def SettingsAreFit (judgement : Judgement) : Prop :=
  ∃ verdict, judgement.1 = .ok verdict ∧ verdict.is .misconfigured = false ∧
    verdict.is .notEnabled = false

theorem conclude_fit {policy : Settings.Policy} {ruleId : Bytes} {session : Session}
    {reply : Transport.Reply} {world world' : World} {judgement : Judgement}
    (h : conclude policy ruleId session reply world = (judgement, world')) :
    SettingsAreFit judgement := by
  have hruling := ruling_conclude policy ruleId session reply world
  rw [h] at hruling
  obtain ⟨hconfigured, henabled⟩ := ruling_ne_of_settings policy reply
  cases hverdict : judgement.1 with
  | error message =>
      rw [hverdict] at hruling
      cases hruling
  | ok verdict =>
      rw [hverdict] at hruling
      have hsame : verdict.ruling = rule (requirements policy reply) := Except.ok.inj hruling
      exact ⟨verdict, hverdict, is_eq_false (hsame ▸ hconfigured), is_eq_false (hsame ▸ henabled)⟩

/-- Where the configuration makes a policy, a run finds no fault with it. -/
theorem run_fit {base : Transport} {options : Options} {settings : Settings.Store}
    {inquiry : Inquiry} {session : Session} {world world' : World} {worlds : List World}
    {judgement : Judgement} {found : Settings.Policy × Settings.Schedule}
    (hfound : policyFor settings inquiry.config = .ok found)
    (h : (authenticator base options).run settings inquiry session world worlds =
      (.done judgement, world')) : SettingsAreFit judgement := by
  obtain ⟨policy, schedule⟩ := found
  simp only [Authenticator.run, authenticator, start, hfound] at h
  split at h
  · cases (through_done ..).symm.trans h
    exact ⟨.notResponsible, rfl, rfl, rfl⟩
  · obtain ⟨reply, world₁, -, hconclude⟩ := ask_done h
    exact conclude_fit hconclude

end Introspection

namespace Chain

/-! ## Handlers that name introspection -/

/-- A handler names nobody, or introspection, which is registered under its own identifier. -/
def NamesIntrospection (base : Transport) (options : Introspection.Options)
    (roster : Roster (Introspection.Pending base)) (handler : Handler) : Prop :=
  roster.find? handler.authenticator = none ∨
    handler.authenticator = Introspection.identifier ∧
      roster.find? handler.authenticator = some (Introspection.authenticator base options)

/-- Introspection is enabled, and the handler's configuration makes a policy. -/
structure Suits (base : Transport) (options : Introspection.Options)
    (roster : Roster (Introspection.Pending base)) (settings : Settings.Store)
    (handler : Handler) : Prop where
  serves : Serves roster settings handler (Introspection.authenticator base options)
  policy : ∃ found, Introspection.policyFor settings handler.config = .ok found

section

variable {base : Transport} {options : Introspection.Options}
  {roster : Roster (Introspection.Pending base)} {settings : Settings.Store}
  {handler : Handler} {handlers rest : List Handler} {petition : Petition} {ruleId : Bytes}
  {session : Session} {world world' : World} {worlds : List World} {judgement : Judgement}

theorem validate_success {checked : World}
    (h : Introspection.validate settings handler.config world = (.success, checked)) :
    settings.isEnabled Introspection.identifier = true ∧
      ∃ found, Introspection.policyFor settings handler.config = .ok found := by
  rw [Introspection.validate] at h
  cases henabled : settings.isEnabled Introspection.identifier with
  | false => simp [henabled] at h
  | true =>
      simp only [henabled, Bool.not_true, Bool.false_eq_true, if_false,
        Introspection.configure] at h
      cases hpolicy : Introspection.policyFor settings handler.config with
      | error rejection => simp [hpolicy] at h
      | ok found => exact ⟨rfl, found, rfl⟩

theorem suits_of_validateHandlers {checked : World}
    (hnames : ∀ handler ∈ handlers, NamesIntrospection base options roster handler)
    (h : validateHandlers roster settings ruleId handlers world = (.success, checked)) :
    ∀ handler ∈ handlers, Suits base options roster settings handler := by
  induction handlers generalizing world with
  | nil => exact fun _ hmem => nomatch hmem
  | cons handler rest ih =>
      rw [validateHandlers] at h
      rcases hnames handler List.mem_cons_self with hnone | ⟨hname, hfind⟩
      · simp [hnone, unknown] at h
      · simp only [hfind, Introspection.authenticator] at h
        split at h
        · next world₁ hvalid =>
            obtain ⟨henabled, hpolicy⟩ := validate_success hvalid
            have hrest := ih (fun other hmem => hnames other (List.mem_cons_of_mem _ hmem)) h
            intro other hmem
            rcases List.mem_cons.mp hmem with rfl | hmem
            · exact ⟨⟨hfind, hname ▸ henabled⟩, hpolicy⟩
            · exact hrest other hmem
        · next verdict world₁ hne _ => exact (hne (Prod.mk.inj h).1).elim

theorem run_of_call {φ : Type} {authenticator : Authenticator φ}
    (h : Completes (authenticator.resume petition.caller) judgement world' worlds
      (call authenticator settings petition handler session world)) :
    authenticator.run settings (petition.inquiry handler) session
      { world with called := world.called ++ [handler] } worlds = (.done judgement, world') :=
  h.through_eq

/-- Handlers that suit come to a judgement that finds no fault with the settings. -/
theorem Outcome.fit
    (hsuits : ∀ handler ∈ rest, Suits base options roster settings handler)
    (h : Outcome roster settings petition session world rest worlds (.done judgement, world')) :
    Introspection.SettingsAreFit judgement := by
  cases h with
  | exhausted => exact ⟨.notResponsible, rfl, rfl, rfl⟩
  | unknown hfind =>
      have hserves := (hsuits _ List.mem_cons_self).serves
      cases hfind.symm.trans hserves.found
  | disabled hfind henabled =>
      have hserves := (hsuits _ List.mem_cons_self).serves
      cases henabled.symm.trans hserves.enabled
  | judged hserves hjudges hne =>
      obtain ⟨hserves', found, hfound⟩ := hsuits _ List.mem_cons_self
      obtain rfl := Option.some.inj (hserves'.found.symm.trans hserves.found)
      exact Introspection.run_fit hfound (run_of_call hjudges)

/-- Introspection is not valid when it is disabled, and else when the configuration makes no
policy. -/
theorem validate_failure {checked : World} {refusal : Refusal} {detail : Bytes}
    (h : Introspection.validate settings handler.config world =
      (.failure refusal detail, checked)) :
    (settings.isEnabled Introspection.identifier = false ∧
        disabled Introspection.identifier = .failure refusal detail) ∨
      settings.isEnabled Introspection.identifier = true ∧
        Introspection.policyFor settings handler.config = .error (refusal, detail) := by
  rw [Introspection.validate] at h
  cases henabled : settings.isEnabled Introspection.identifier with
  | false =>
      simp only [henabled, Bool.not_false, if_true] at h
      exact .inl ⟨rfl, (Prod.mk.inj h).1⟩
  | true =>
      simp only [henabled, Bool.not_true, Bool.false_eq_true, if_false,
        Introspection.configure] at h
      cases hpolicy : Introspection.policyFor settings handler.config with
      | ok found => simp [hpolicy] at h
      | error rejection =>
          simp only [hpolicy] at h
          obtain ⟨hrefusal, hdetail⟩ := Verdict.failure.inj (Prod.mk.inj h).1
          exact .inr ⟨rfl, by rw [← hrefusal, ← hdetail]⟩

/-- A handler that is not valid decides in the same words, and nothing but journal and calls is
touched. -/
theorem Outcome.of_invalid {checked checked' : World} {refusal : Refusal} {detail : Bytes}
    (hnames : NamesIntrospection base options roster handler) (petition : Petition)
    (h : validateHandlers roster settings petition.rule.id [handler] checked =
      (.failure refusal detail, checked')) (session : Session) (world : World)
    (worlds : List World) :
    ∃ journal called, Outcome roster settings petition session world [handler] worlds
      (.done (.ok (.failure refusal detail), session), { world with journal, called }) := by
  rw [validateHandlers] at h
  rcases hnames with hnone | ⟨hname, hfind⟩
  · simp only [hnone] at h
    refine ⟨world.journal, world.called, ?_⟩
    rw [← (Prod.mk.inj h).1]
    exact .unknown hnone
  · simp only [hfind, Introspection.authenticator] at h
    split at h
    · simp [validateHandlers] at h
    · next verdict checked₁ _ hvalid =>
        obtain rfl := (Prod.mk.inj h).1
        rcases validate_failure hvalid with ⟨henabled, hverdict⟩ | ⟨henabled, hpolicy⟩
        · refine ⟨world.journal, world.called, ?_⟩
          rw [← hverdict, ← hname]
          exact .disabled hfind (hname ▸ henabled)
        · have hcall : call (Introspection.authenticator base options) settings petition handler
              session world = (.done (.ok (.failure refusal detail), session),
                Introspection.noteRejection (refusal, detail)
                  { world with called := world.called ++ [handler] }) := by
            simp only [call, Introspection.authenticator, Introspection.start, Petition.inquiry,
              hpolicy, Introspection.reject]
          have hjudges : Completes
              ((Introspection.authenticator base options).resume petition.caller)
              (.ok (.failure refusal detail), session)
              (Introspection.noteRejection (refusal, detail)
                { world with called := world.called ++ [handler] }) []
              (call (Introspection.authenticator base options) settings petition handler session
                world) := hcall ▸ .done
          refine ⟨_, _, .judged ⟨hfind, hname ▸ henabled⟩ hjudges ?_⟩
          intro hsame
          cases hsame

end

/-! ## The theorem -/

/-- **Validation and execution agree.**  Of a rule whose handlers all name introspection or
nobody, valid means that no petition under it, in whatever world and whatever the transport does,
is judged misconfigured or not enabled.  When such a rule has one handler and is not valid, every
petition is refused at once for the same reason in the same words: the session stays, and
nothing is sent, cached or granted. -/
theorem validation_agrees_with_runs {base : Transport} (options : Introspection.Options)
    (roster : Roster (Introspection.Pending base)) (settings : Settings.Store) (rule : Rule)
    (hnames : ∀ handler ∈ rule.handlers, NamesIntrospection base options roster handler) :
    (∀ checked checked', validate roster settings rule checked = (.success, checked') →
      ∀ caller request session world worlds judgement world',
        run roster settings ⟨caller, request, rule⟩ session world worlds =
          (.done judgement, world') → Introspection.SettingsAreFit judgement) ∧
    ∀ handler checked checked' refusal detail, rule.handlers = [handler] →
      validate roster settings rule checked = (.failure refusal detail, checked') →
      ∀ caller request session world worlds, ∃ journal called,
        run roster settings ⟨caller, request, rule⟩ session world worlds =
          (.done (.ok (.failure refusal detail), session), { world with journal, called }) := by
  constructor
  · intro checked checked' hvalid caller request session world worlds judgement world' hrun
    have hhandlers : validateHandlers roster settings rule.id rule.handlers checked =
        (.success, checked') := by
      rw [validate] at hvalid
      split at hvalid
      · simp [noHandlers] at hvalid
      · exact hvalid
    have hsuits := suits_of_validateHandlers hnames hhandlers
    obtain ⟨passed, rest, session₁, world₁, before, after, hsplit, -, -, houtcome⟩ :=
      run_eq_dispatch.mp hrun
    refine houtcome.fit fun handler hmem => hsuits handler ?_
    rw [show rule.handlers = passed ++ rest from hsplit]
    exact List.mem_append_right _ hmem
  · intro handler checked checked' refusal detail hone hinvalid caller request session world worlds
    have hhandlers : validateHandlers roster settings rule.id [handler] checked =
        (.failure refusal detail, checked') := by
      simpa only [validate, hone, List.isEmpty_cons, Bool.false_eq_true, if_false] using hinvalid
    have hname := hnames handler (hone ▸ List.mem_cons_self)
    obtain ⟨journal, called, houtcome⟩ :=
      Outcome.of_invalid hname ⟨caller, request, rule⟩ hhandlers session world worlds
    refine ⟨journal, called, run_eq_dispatch.mpr ?_⟩
    exact ⟨[], [handler], session, world, [], worlds, hone, rfl, .none, houtcome⟩

def soleRoster : Roster (Introspection.Pending (Transport.wire knowingPeer)) :=
  [(Introspection.identifier, Introspection.authenticator _ {})]

def soleRule (config : Bytes) : Rule where
  id := utf8 "r"
  handlers := [⟨Introspection.identifier, config⟩]

theorem soleRule_names (config : Bytes) :
    ∀ handler ∈ (soleRule config).handlers,
      NamesIntrospection (Transport.wire knowingPeer) {} soleRoster handler := by
  intro handler hmem
  obtain rfl := List.mem_singleton.mp hmem
  exact .inr ⟨rfl, by simp [soleRoster, Roster.find?]⟩

/-- A rule that is valid is not refused for its settings, and one whose configuration is no JSON
is refused as it is found invalid. -/
theorem sole_rule_validated :
    (∃ judgement world',
      run soleRoster watchfulSettings ⟨{}, watchfulPetition.request, soleRule []⟩ {} {} [] =
        (.done judgement, world') ∧ Introspection.SettingsAreFit judgement) ∧
    ∃ detail journal called,
      run soleRoster watchfulSettings ⟨{}, watchfulPetition.request, soleRule (utf8 "x")⟩ {} {} [] =
        (.done (.ok (.failure .misconfigured detail), {}), { journal, called }) := by
  constructor
  · obtain ⟨hfit, -⟩ := validation_agrees_with_runs {} soleRoster watchfulSettings (soleRule [])
      (soleRule_names [])
    have hvalid : validate soleRoster watchfulSettings (soleRule []) {} =
        (.success, (validate soleRoster watchfulSettings (soleRule []) {}).2) :=
      Prod.ext (by decide +kernel) rfl
    obtain ⟨judgement, world', hrun, -⟩ := @done_of_success _
      (run soleRoster watchfulSettings ⟨{}, watchfulPetition.request, soleRule []⟩ {} {} [])
      (by decide +kernel)
    exact ⟨judgement, world', hrun, hfit _ _ hvalid _ _ _ _ _ _ _ hrun⟩
  · obtain ⟨-, hsame⟩ := validation_agrees_with_runs {} soleRoster watchfulSettings
      (soleRule (utf8 "x")) (soleRule_names _)
    have hrefused : ((validate soleRoster watchfulSettings (soleRule (utf8 "x")) {}).1.is
        .misconfigured) = true := by decide +kernel
    generalize hvalidated : validate soleRoster watchfulSettings (soleRule (utf8 "x")) {} =
      validated at hrefused
    obtain ⟨verdict, checked⟩ := validated
    cases verdict with
    | success => cases hrefused
    | notResponsible => cases hrefused
    | failure refusal detail =>
        obtain rfl : refusal = .misconfigured := by simpa [Verdict.is] using hrefused
        exact ⟨detail, hsame _ _ _ _ _ rfl hvalidated _ _ _ _ _⟩

end Chain

end BearerAuth
