import BearerAuth.Proofs.Introspection.Decision
import BearerAuth.Proofs.Json.Members

/-!
# What introspection makes of a session

An authenticator keeps a session when it leaves it as it is unless its verdict is success
(`KeepsSession`).  The introspection authenticator does, whatever its transport does, and when it
succeeds nothing of the session before is left: the new one is read off the answer (`ReadOff`).
-/

namespace BearerAuth

namespace Authenticator

variable {φ : Type}

/-- The judgement of an authenticator, seen through its pauses. -/
def run (authenticator : Authenticator φ) (settings : Settings.Store) (inquiry : Inquiry)
    (session : Session) (world : World) (worlds : List World) : Stretch φ Judgement :=
  Stretch.through (authenticator.resume inquiry.caller) worlds
    (authenticator.start settings inquiry session world)

/-- An authenticator leaves the session as it is unless it succeeds. -/
def KeepsSession (authenticator : Authenticator φ) : Prop :=
  ∀ settings inquiry session world worlds judgement world',
    authenticator.run settings inquiry session world worlds = (.done judgement, world') →
    judgement.1 ≠ .ok .success → judgement.2 = session

/-- Of those that behave the same whatever they are asked, all do. -/
theorem fixed_keepsSession (behaviour : Behaviour) :
    (fixed φ behaviour).KeepsSession := by
  intro settings inquiry session world worlds judgement world' hrun hfailed
  simp only [run, fixed] at hrun
  split at hrun
  · cases (Stretch.through_done ..).symm.trans hrun
    rfl
  · cases (Stretch.through_done ..).symm.trans hrun
    cases hverdict : behaviour.verdict with
    | success => exact absurd (congrArg Except.ok hverdict) hfailed
    | _ => rfl

end Authenticator

namespace Introspection

/-- The session has the subject of the members of an answer, and every further member that they
hand on, save that user, client and scope are those that they name themselves. -/
structure ReadOff (members : Json.Members) (session : Session) : Prop where
  subject : session.subject = textAt members "sub"
  extra : ∀ key, session.extra.get? key =
    if key = utf8 "username" then some (.text (textAt members "username"))
    else if key = utf8 "client_id" then some (.text (textAt members "client_id"))
    else if key = utf8 "scope" then some (.text (textAt members "scope"))
    else (extraAt members).get? key

theorem readOff_answerOf (members : Json.Members) :
    ReadOff members (answerOf members).session := by
  refine ⟨rfl, fun key => ?_⟩
  simp only [Answer.session, answerOf, Json.Members.get?_put, @eq_comm _ _ key]
  by_cases huser : key = utf8 "username"
  · subst huser
    rfl
  · by_cases hclient : key = utf8 "client_id"
    · subst hclient
      rfl
    · by_cases hscope : key = utf8 "scope"
      · subst hscope
        rfl
      · simp only [huser, hclient, hscope, if_false]

theorem judge_ok {policy : Settings.Policy} {reply : Transport.Reply} {answer : Answer}
    (h : judge policy reply = .ok answer) :
    ∃ members, objectOf reply = some members ∧ wellTyped members = true ∧
      answer = answerOf members := by
  have hread : readReply reply = .ok answer := by
    rw [judge] at h
    cases hreply : readReply reply with
    | error rejection =>
        rw [hreply] at h
        cases h
    | ok answer' =>
        rw [hreply] at h
        change (check policy answer' >>= fun _ => Except.ok answer') = .ok answer at h
        cases hcheck : check policy answer' with
        | error rejection =>
            rw [hcheck] at h
            cases h
        | ok =>
            rw [hcheck] at h
            exact h
  rcases readReply_eq reply with ⟨-, hrefused⟩ | ⟨-, -, hrefused⟩ | ⟨-, hfits, hok⟩
  · rw [hread] at hrefused
    cases hrefused
  · rw [hread] at hrefused
    cases hrefused
  · obtain ⟨members, hobject, htyped⟩ := Option.any_eq_true _ _ |>.mp hfits
    rw [hobject] at hok
    exact ⟨members, hobject, htyped, Except.ok.inj (hread.symm.trans hok)⟩

section

variable {base : Transport} {options : Options} {settings : Settings.Store} {inquiry : Inquiry}
  {session : Session} {world world' : World} {worlds : List World} {judgement : Judgement}

theorem ask_done {policy : Settings.Policy} {schedule : Settings.Schedule} {token : Bytes}
    (h : Stretch.through (resume base inquiry.caller) worlds
      (ask base options policy schedule token inquiry session world) = (.done judgement, world')) :
    ∃ reply world₁, exchange base options inquiry.caller world worlds policy schedule token =
        some reply ∧
      conclude policy inquiry.ruleId session reply world₁ = (judgement, world') := by
  rw [exchange]
  rw [ask] at h
  generalize routeFor options policy schedule world = chosen at h
  obtain ⟨route, world₀⟩ := chosen
  have hresume (phase : (route.transport base).Phase) (world : World) :
      resume base inquiry.caller { policy, ruleId := inquiry.ruleId, session, route, phase } world
        = ((route.transport base).resume inquiry.caller phase world).andThen
            (fun phase => { policy, ruleId := inquiry.ruleId, session, route, phase })
            (finish policy inquiry.ruleId session) := rfl
  simp only [Stretch.through_andThen hresume (settles_finish policy inquiry.ruleId session)] at h
  generalize hrun : Stretch.through ((route.transport base).resume inquiry.caller) worlds
      ((route.transport base).start inquiry.caller policy.endpoint
        (inquiryRequest policy token) world₀) = run at h
  obtain ⟨progress, world₁⟩ := run
  cases progress with
  | paused phase wait => cases h
  | done reply =>
      refine ⟨reply, world₁, ?_, ?_⟩
      · simp only [hrun, Stretch.result?_done]
      · simp only [Stretch.andThen_done, finish, Prod.mk.injEq, Progress.done.injEq] at h
        exact Prod.ext h.1 h.2

theorem conclude_session {policy : Settings.Policy} {ruleId : Bytes} {reply : Transport.Reply}
    (h : conclude policy ruleId session reply world = (judgement, world')) :
    (judgement.1 ≠ .ok .success → judgement.2 = session) ∧
    (judgement.1 = .ok .success → ∃ members, objectOf reply = some members ∧
      wellTyped members = true ∧ ReadOff members judgement.2) := by
  rw [conclude] at h
  cases hjudge : judge policy reply with
  | error rejection =>
      rw [hjudge] at h
      obtain rfl := (Prod.mk.inj h).1
      refine ⟨fun _ => rfl, fun hsuccess => ?_⟩
      cases hsuccess
  | ok answer =>
      rw [hjudge] at h
      obtain rfl := (Prod.mk.inj h).1
      refine ⟨fun hfailed => absurd rfl hfailed, fun _ => ?_⟩
      obtain ⟨members, hobject, htyped, rfl⟩ := judge_ok hjudge
      exact ⟨members, hobject, htyped, readOff_answerOf members⟩

/-- A run leaves the session as it is, or reads it off the reply of the endpoint. -/
theorem run_session
    (h : (authenticator base options).run settings inquiry session world worlds =
      (.done judgement, world')) :
    (judgement.1 ≠ .ok .success → judgement.2 = session) ∧
    (judgement.1 = .ok .success → ∃ policy schedule reply members,
      policyFor settings inquiry.config = .ok (policy, schedule) ∧
      exchange base options inquiry.caller world worlds policy schedule
        (Credential.extract inquiry.request policy.tokenFrom) = some reply ∧
      objectOf reply = some members ∧ wellTyped members = true ∧ ReadOff members judgement.2) := by
  simp only [Authenticator.run, authenticator, start] at h
  cases hpolicy : policyFor settings inquiry.config with
  | error rejection =>
      rw [hpolicy] at h
      cases (Stretch.through_done ..).symm.trans h
      refine ⟨fun _ => rfl, fun hsuccess => ?_⟩
      cases hsuccess
  | ok found =>
      obtain ⟨policy, schedule⟩ := found
      simp only [hpolicy] at h
      split at h
      · cases (Stretch.through_done ..).symm.trans h
        refine ⟨fun _ => rfl, fun hsuccess => ?_⟩
        cases hsuccess
      · obtain ⟨reply, world₁, hreply, hconclude⟩ := ask_done h
        obtain ⟨hkept, hread⟩ := conclude_session hconclude
        refine ⟨hkept, fun hsuccess => ?_⟩
        obtain ⟨members, hobject, htyped, hoff⟩ := hread hsuccess
        exact ⟨policy, schedule, reply, members, rfl, hreply, hobject, htyped, hoff⟩

end

theorem authenticator_keepsSession (base : Transport) (options : Options) :
    (authenticator base options).KeepsSession :=
  fun _ _ _ _ _ _ _ hrun => (run_session hrun).1

end Introspection

end BearerAuth
