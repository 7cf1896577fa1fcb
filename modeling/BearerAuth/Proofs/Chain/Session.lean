import BearerAuth.Chain
import BearerAuth.Proofs.Introspection.Session
import BearerAuth.Transport.Wire

/-!
# What a chain makes of a session

A chain tries its handlers in order, each with the session that the one before it has left.  As
long as they pass the request on that is the session the chain began with, and the handler that
does not pass it on decides what becomes of it (`Decides`).  So a chain of authenticators that keep
the session keeps it too, and when the chain succeeds, the session is that of the one handler that
succeeded.
-/

namespace BearerAuth

namespace Chain

variable {φ : Type}

structure Serves (roster : Roster φ) (settings : Settings.Store) (handler : Handler)
    (authenticator : Authenticator φ) : Prop where
  found : roster.find? handler.authenticator = some authenticator
  enabled : settings.isEnabled handler.authenticator = true

/-- The authenticator of a handler comes to a judgement on a petition, and leaves a world. -/
def Judges (roster : Roster φ) (settings : Settings.Store) (petition : Petition)
    (handler : Handler) (session : Session) (worlds : List World) (judgement : Judgement)
    (world' : World) : Prop :=
  ∃ authenticator world, Serves roster settings handler authenticator ∧
    authenticator.run settings (petition.inquiry handler) session world worlds =
      (.done judgement, world')

/-- The judgement of a chain, seen through its pauses. -/
def run (roster : Roster φ) (settings : Settings.Store) (petition : Petition) (session : Session)
    (world : World) (worlds : List World) : Stretch (Pending φ) Judgement :=
  Stretch.through (resume roster settings petition) worlds
    (start roster settings petition session world)

/-- How handlers, tried in order from a session on, come to a judgement.  The pauses are those of
the handlers, one after the other. -/
inductive Decides (roster : Roster φ) (settings : Settings.Store) (petition : Petition)
    (judgement : Judgement) (world' : World) : List Handler → Session → List World → Prop
  /-- None is left. -/
  | exhausted {session : Session} {worlds : List World} :
      judgement = (.ok .notResponsible, session) →
      Decides roster settings petition judgement world' [] session worlds
  /-- The next one cannot be asked. -/
  | refused {handler : Handler} {rest : List Handler} {session : Session} {worlds : List World}
      {refusal : Refusal} {detail : Bytes} : judgement = (.ok (.failure refusal detail), session) →
      Decides roster settings petition judgement world' (handler :: rest) session worlds
  /-- The next one judges. -/
  | judged {handler : Handler} {rest : List Handler} {session : Session}
      {worlds after : List World} :
      Judges roster settings petition handler session worlds judgement world' →
      Decides roster settings petition judgement world' (handler :: rest) session (worlds ++ after)
  /-- The next one passes the petition on, and those after it decide. -/
  | passed {handler : Handler} {rest : List Handler} {session session' : Session}
      {worlds after : List World} {world : World} :
      Judges roster settings petition handler session worlds (.ok .notResponsible, session')
        world →
      Decides roster settings petition judgement world' rest session' after →
      Decides roster settings petition judgement world' (handler :: rest) session (worlds ++ after)

section

variable {roster : Roster φ} {settings : Settings.Store} {petition : Petition}
  {handlers : List Handler} {session : Session} {worlds : List World} {judgement : Judgement}
  {world' : World}

/-- Handlers come to a judgement in no other way, whatever happens in the pauses. -/
theorem decides_of_tryAll {world : World}
    (h : Stretch.through (resume roster settings petition) worlds
      (tryAll roster settings petition handlers session world) = (.done judgement, world')) :
    Decides roster settings petition judgement world' handlers session worlds := by
  induction handlers generalizing session world worlds with
  | nil =>
      cases (Stretch.through_done ..).symm.trans h
      exact .exhausted rfl
  | cons handler rest ih =>
      rw [tryAll] at h
      cases hfind : roster.find? handler.authenticator with
      | none =>
          rw [hfind] at h
          cases (Stretch.through_done ..).symm.trans h
          exact .refused rfl
      | some authenticator =>
          simp only [hfind] at h
          cases henabled : settings.isEnabled handler.authenticator with
          | false =>
              simp only [henabled, Bool.not_false, if_true] at h
              cases (Stretch.through_done ..).symm.trans h
              exact .refused rfl
          | true =>
              simp only [henabled, Bool.not_true, Bool.false_eq_true, if_false, afterHandler] at h
              -- the handler judges at one of the pauses, and what it decides takes up the others
              have hresume (phase : φ) (world : World) :
                  resume roster settings petition ⟨handler, rest, phase⟩ world =
                    afterHandler petition.rule.id handler rest
                      (tryAll roster settings petition rest)
                      (authenticator.resume petition.caller phase world) := by
                simp only [resume, hfind]
              obtain ⟨before, after, asked, world₁, rfl, hjudges, hrest⟩ :=
                Stretch.through_split hresume worlds _ h
              have hjudged : Judges roster settings petition handler session before asked world₁ :=
                ⟨authenticator, _, ⟨hfind, henabled⟩, hjudges⟩
              split at hrest
              · exact .passed hjudged (ih hrest)
              · cases (Stretch.through_done ..).symm.trans hrest
                exact .judged hjudged

/-- The authenticators of handlers keep the session. -/
def AllKeep (roster : Roster φ) (handlers : List Handler) : Prop :=
  ∀ handler ∈ handlers, ∀ authenticator, roster.find? handler.authenticator = some authenticator →
    authenticator.KeepsSession

theorem AllKeep.tail {handler : Handler} (h : AllKeep roster (handler :: handlers)) :
    AllKeep roster handlers :=
  fun handler' hmem => h handler' (List.mem_cons_of_mem _ hmem)

theorem Judges.kept {handler : Handler} (hkeep : AllKeep roster (handler :: handlers))
    (h : Judges roster settings petition handler session worlds judgement world')
    (hfailed : judgement.1 ≠ .ok .success) : judgement.2 = session := by
  obtain ⟨authenticator, world, hserves, hrun⟩ := h
  exact hkeep handler List.mem_cons_self authenticator hserves.found _ _ _ _ _ _ _ hrun hfailed

theorem Decides.kept (hkeep : AllKeep roster handlers)
    (h : Decides roster settings petition judgement world' handlers session worlds)
    (hfailed : judgement.1 ≠ .ok .success) : judgement.2 = session := by
  induction h with
  | exhausted hnone => rw [hnone]
  | refused hrefused => rw [hrefused]
  | judged hjudges => exact hjudges.kept hkeep hfailed
  | passed hjudges _ ih => exact (ih hkeep.tail).trans (hjudges.kept hkeep nofun)

/-- One handler succeeds, reached by others that leave everything as it is. -/
structure Succeeds (roster : Roster φ) (settings : Settings.Store) (petition : Petition)
    (judgement : Judgement) (world' : World) (handlers : List Handler) (session : Session)
    (worlds : List World) (passed : List Handler) (handler : Handler) (rest : List Handler)
    (before during after : List World) : Prop where
  handlers : handlers = passed ++ handler :: rest
  worlds : worlds = before ++ during ++ after
  passed : ∀ earlier ∈ passed, ∃ worlds world,
    Judges roster settings petition earlier session worlds (.ok .notResponsible, session) world
  judges : Judges roster settings petition handler session during judgement world'

theorem Decides.succeeds (hkeep : AllKeep roster handlers)
    (h : Decides roster settings petition judgement world' handlers session worlds)
    (hsuccess : judgement.1 = .ok .success) :
    ∃ passed handler rest before during after, Succeeds roster settings petition judgement world'
      handlers session worlds passed handler rest before during after := by
  induction h with
  | exhausted hnone =>
      rw [hnone] at hsuccess
      cases hsuccess
  | refused hrefused =>
      rw [hrefused] at hsuccess
      cases hsuccess
  | @judged handler rest session worlds after hjudges =>
      exact ⟨[], handler, rest, [], worlds, after, rfl, rfl, by simp, hjudges⟩
  | @passed handler rest session session' worlds after world hjudges _ ih =>
      obtain rfl : session' = session := hjudges.kept hkeep nofun
      obtain ⟨passed, handler', rest', before, during, after', hsucceeds⟩ := ih hkeep.tail
      refine ⟨handler :: passed, handler', rest', worlds ++ before, during, after', ?_, ?_, ?_,
        hsucceeds.judges⟩
      · rw [hsucceeds.handlers, List.cons_append]
      · rw [hsucceeds.worlds, List.append_assoc, List.append_assoc, List.append_assoc]
      · intro earlier hmem
        rcases List.mem_cons.mp hmem with rfl | hmem
        · exact ⟨worlds, world, hjudges⟩
        · exact hsucceeds.passed earlier hmem

end

/-! ## The theorem -/

/-- **A session changes only on success.**  Whatever the transport does and whatever happens in
the pauses, introspection leaves the session as it was unless it succeeds, and then subject and
further members are read off the answer, with nothing left of those before.  A chain of
authenticators that each leave the session alone unless they succeed does so too, and when it
succeeds, its judgement is that of one handler on the session the chain began with, all handlers
before having passed the petition on and left everything as it was. -/
theorem session_changes_on_success_only :
    (∀ (base : Transport) (options : Introspection.Options) (settings : Settings.Store)
      (inquiry : Inquiry) (session : Session) (world world' : World) (worlds : List World)
      (judgement : Judgement),
      (Introspection.authenticator base options).run settings inquiry session world worlds =
        (.done judgement, world') →
      (judgement.1 ≠ .ok .success → judgement.2 = session) ∧
      (judgement.1 = .ok .success → ∃ policy schedule reply members,
        Introspection.policyFor settings inquiry.config = .ok (policy, schedule) ∧
        Introspection.exchange base options inquiry.caller world worlds policy schedule
          (Credential.extract inquiry.request policy.tokenFrom) = some reply ∧
        Introspection.objectOf reply = some members ∧
        Introspection.wellTyped members = true ∧ Introspection.ReadOff members judgement.2)) ∧
    ∀ {φ : Type} (roster : Roster φ) (settings : Settings.Store) (petition : Petition)
      (session : Session) (world world' : World) (worlds : List World) (judgement : Judgement),
      AllKeep roster petition.rule.handlers →
      run roster settings petition session world worlds = (.done judgement, world') →
      (judgement.1 ≠ .ok .success → judgement.2 = session) ∧
      (judgement.1 = .ok .success → ∃ passed handler rest before during after,
        Succeeds roster settings petition judgement world' petition.rule.handlers session worlds
          passed handler rest before during after) := by
  constructor
  · intro base options settings inquiry session world world' worlds judgement hrun
    exact Introspection.run_session hrun
  · intro φ roster settings petition session world world' worlds judgement hkeep hrun
    have hdecides : Decides roster settings petition judgement world' petition.rule.handlers
        session worlds := decides_of_tryAll hrun
    exact ⟨hdecides.kept hkeep, hdecides.succeeds hkeep⟩

/-- An answer that hands a scope on, and names another. -/
def twoScopes : Bytes :=
  utf8 "\x7b\"active\":true,\"sub\":\"u\",\"ext\":\x7b\"scope\":\"a\"\x7d,\"scope\":\"b\"\x7d"

def knowingPeer : Transport.Peer := fun _ _ => .ok { reply := .ok { body := twoScopes } }

/-- Introspection, and an authenticator that is responsible for nothing. -/
def watchfulRoster : Roster (Introspection.Pending (Transport.wire knowingPeer)) :=
  [(utf8 "none", .fixed _ { id := utf8 "none", verdict := .notResponsible }),
   (Introspection.identifier, Introspection.authenticator _ {})]

def watchfulSettings : Settings.Store :=
  [(utf8 "none", { enabled := true }),
   (Introspection.identifier,
     { enabled := true, defaults := [(utf8 "introspection_url", .text (utf8 "http://i/"))] })]

/-- A request with a token, under a rule that tries both. -/
def watchfulPetition : Petition where
  request := { headers := [(utf8 "Authorization", utf8 "Bearer x")] }
  rule := { id := [], handlers := [⟨utf8 "none", []⟩, ⟨Introspection.identifier, []⟩] }

theorem watchfulRoster_keeps (handlers : List Handler) : AllKeep watchfulRoster handlers := by
  intro handler _ authenticator hfind
  simp only [watchfulRoster, Roster.find?] at hfind
  split at hfind
  · obtain rfl := Option.some.inj hfind
    exact Authenticator.fixed_keepsSession _
  · split at hfind
    · obtain rfl := Option.some.inj hfind
      exact Introspection.authenticator_keepsSession _ _
    · cases hfind

theorem done_of_success {stretch : Stretch φ Judgement}
    (h : (stretch.result?.bind fun judgement => judgement.1.toOption) = some .success) :
    ∃ judgement world, stretch = (.done judgement, world) ∧ judgement.1 = .ok .success := by
  obtain ⟨judgement, hresult, hverdict⟩ := Option.bind_eq_some_iff.mp h
  obtain ⟨world, hdone⟩ := Stretch.result?_eq_some hresult
  refine ⟨judgement, world, hdone, ?_⟩
  cases hjudgement : judgement.1 with
  | error message =>
      rw [hjudgement] at hverdict
      cases hverdict
  | ok verdict =>
      rw [hjudgement] at hverdict
      exact congrArg Except.ok (Option.some.inj hverdict)

/-- The second handler succeeds, alone and in the chain, and nothing is left of the session. -/
theorem second_handler_writes_session :
    (∃ judgement world' members,
      (Introspection.authenticator (Transport.wire knowingPeer) {}).run watchfulSettings
          (watchfulPetition.inquiry ⟨Introspection.identifier, []⟩) { subject := utf8 "v" } {} [] =
        (.done judgement, world') ∧ Introspection.ReadOff members judgement.2) ∧
    ∃ judgement world' passed handler rest before during after,
      run watchfulRoster watchfulSettings watchfulPetition { subject := utf8 "v" } {} [] =
        (.done judgement, world') ∧
      Succeeds watchfulRoster watchfulSettings watchfulPetition judgement world'
        watchfulPetition.rule.handlers { subject := utf8 "v" } [] passed handler rest before during
        after := by
  obtain ⟨halone, hchain⟩ := session_changes_on_success_only
  constructor
  · obtain ⟨judgement, world', hrun, hverdict⟩ := @done_of_success _
      ((Introspection.authenticator (Transport.wire knowingPeer) {}).run watchfulSettings
        (watchfulPetition.inquiry ⟨Introspection.identifier, []⟩) { subject := utf8 "v" } {} [])
      (by decide +kernel)
    obtain ⟨-, -, -, members, -, -, -, -, hread⟩ :=
      (halone _ _ _ _ _ _ _ _ _ hrun).2 hverdict
    exact ⟨judgement, world', members, hrun, hread⟩
  · obtain ⟨judgement, world', hrun, hverdict⟩ := @done_of_success _
      (run watchfulRoster watchfulSettings watchfulPetition { subject := utf8 "v" } {} [])
      (by decide +kernel)
    obtain ⟨passed, handler, rest, before, during, after, hsucceeds⟩ :=
      (hchain _ _ _ _ _ _ _ _ (watchfulRoster_keeps _) hrun).2 hverdict
    exact ⟨judgement, world', passed, handler, rest, before, during, after, hrun, hsucceeds⟩

end Chain

end BearerAuth
