import BearerAuth.Proofs.Chain.Session

/-!
# Which handler decides, and which are called

A chain is dispatched when handlers at its front all pass the petition on (`AllPass`), each
called once with its own configuration, and what is left of the rule comes to an `Outcome`: no
handler is left, the first one is unknown or disabled, or its authenticator is called and judges
otherwise or still waits.  A run of a chain comes out in exactly these ways
(`run_eq_dispatch`), and the pauses of the handlers follow one another in it.

The calls are seen in the world as well: as long as authenticators call no handlers of their
own (`CallsNone`), the handlers that a run adds to the list of the called are those that pass
and the one that decides, in order and each once (`Dispatched.calls_eq`).
-/

namespace BearerAuth

open Stretch

/-! ## Authenticators that call no handlers -/

/-- An authenticator calls no handlers of its own. -/
structure Authenticator.CallsNone {φ : Type} (authenticator : Authenticator φ) : Prop where
  start : ∀ settings inquiry session world,
    (authenticator.start settings inquiry session world).2.called = world.called
  resume : ∀ caller phase world, (authenticator.resume caller phase world).2.called = world.called

theorem Authenticator.fixed_callsNone {φ : Type} (behaviour : Behaviour) :
    (fixed φ behaviour).CallsNone where
  start settings inquiry session world := by
    simp only [fixed]
    split
    · rfl
    · rfl
  resume caller phase world := rfl

namespace Chain

variable {φ : Type}

/-! ## How a chain is dispatched -/

def call (authenticator : Authenticator φ) (settings : Settings.Store) (petition : Petition)
    (handler : Handler) (session : Session) (world : World) : Stretch φ Judgement :=
  authenticator.start settings (petition.inquiry handler) session
    { world with called := world.called ++ [handler] }

/-- What follows the judgement of a handler's authenticator. -/
def follow (roster : Roster φ) (settings : Settings.Store) (petition : Petition)
    (handler : Handler) (rest : List Handler) (judgement : Judgement) (world : World) :
    Stretch (Pending φ) Judgement :=
  match judgement with
  | (.ok .notResponsible, session) =>
      tryAll roster settings petition rest session (notePassed petition.rule.id handler world)
  | other => (.done other, world)

/-- Handlers pass a petition on, one after the other: each is known and enabled, is called with
what the one before it has left, and is not responsible. -/
inductive AllPass (roster : Roster φ) (settings : Settings.Store) (petition : Petition)
    (session' : Session) (world' : World) :
    List Handler → Session → World → List World → Prop
  | none : AllPass roster settings petition session' world' [] session' world' []
  | next {handler : Handler} {rest : List Handler} {authenticator : Authenticator φ}
      {session session₁ : Session} {world world₁ : World} {before after : List World} :
      Serves roster settings handler authenticator →
      Completes (authenticator.resume petition.caller) (.ok .notResponsible, session₁) world₁
        before (call authenticator settings petition handler session world) →
      AllPass roster settings petition session' world' rest session₁
        (notePassed petition.rule.id handler world₁) after →
      AllPass roster settings petition session' world' (handler :: rest) session world
        (before ++ after)

/-- What the handlers that are left come to.  The first of them decides, if there is one. -/
inductive Outcome (roster : Roster φ) (settings : Settings.Store) (petition : Petition)
    (session : Session) (world : World) :
    List Handler → List World → Stretch (Pending φ) Judgement → Prop
  | exhausted {worlds : List World} : Outcome roster settings petition session world [] worlds
      (.done (.ok .notResponsible, session), noteExhausted petition.rule.id world)
  | unknown {handler : Handler} {rest : List Handler} {worlds : List World} :
      roster.find? handler.authenticator = none →
      Outcome roster settings petition session world (handler :: rest) worlds
        (.done (.ok (Chain.unknown petition.rule.id handler.authenticator), session), world)
  | disabled {handler : Handler} {rest : List Handler} {authenticator : Authenticator φ}
      {worlds : List World} : roster.find? handler.authenticator = some authenticator →
      settings.isEnabled handler.authenticator = false →
      Outcome roster settings petition session world (handler :: rest) worlds
        (.done (.ok (Chain.disabled handler.authenticator), session), world)
  /-- Any judgement but that it is not responsible is that of the chain. -/
  | judged {handler : Handler} {rest : List Handler} {authenticator : Authenticator φ}
      {judgement : Judgement} {world' : World} {before after : List World} :
      Serves roster settings handler authenticator →
      Completes (authenticator.resume petition.caller) judgement world' before
        (call authenticator settings petition handler session world) →
      judgement.1 ≠ .ok .notResponsible →
      Outcome roster settings petition session world (handler :: rest) (before ++ after)
        (.done judgement, world')
  | waiting {handler : Handler} {rest : List Handler} {authenticator : Authenticator φ}
      {phase : φ} {wait : Transport.Wait} {world' : World} {worlds : List World} :
      Serves roster settings handler authenticator →
      through (authenticator.resume petition.caller) worlds
        (call authenticator settings petition handler session world) =
          (.paused phase wait, world') →
      Outcome roster settings petition session world (handler :: rest) worlds
        (.paused ⟨handler, rest, phase⟩ wait, world')

/-- The handlers of a rule that pass a petition on, those that are left, and what these come
to. -/
def Dispatched (roster : Roster φ) (settings : Settings.Store) (petition : Petition)
    (session : Session) (world : World) (worlds : List World) (passed rest : List Handler)
    (outcome : Stretch (Pending φ) Judgement) : Prop :=
  ∃ session₁ world₁ before after, petition.rule.handlers = passed ++ rest ∧
    worlds = before ++ after ∧
    AllPass roster settings petition session₁ world₁ passed session world before ∧
    Outcome roster settings petition session₁ world₁ rest after outcome

section

variable {roster : Roster φ} {settings : Settings.Store} {petition : Petition}
  {handler : Handler} {handlers passed rest : List Handler} {authenticator : Authenticator φ}
  {session session' : Session} {world world' : World} {worlds before : List World}
  {outcome : Stretch (Pending φ) Judgement}

theorem follow_judged {judgement : Judgement} (hne : judgement.1 ≠ .ok .notResponsible) :
    follow roster settings petition handler rest judgement world = (.done judgement, world) := by
  unfold follow
  split
  · exact absurd rfl hne
  · rfl

theorem tryAll_served (h : Serves roster settings handler authenticator) :
    tryAll roster settings petition (handler :: rest) session world =
      (call authenticator settings petition handler session world).andThen
        (fun phase => ⟨handler, rest, phase⟩) (follow roster settings petition handler rest) := by
  simp only [tryAll, h.found, h.enabled, Bool.not_true, Bool.false_eq_true, if_false]
  rfl

theorem resume_served (hfind : roster.find? handler.authenticator = some authenticator)
    (phase : φ) (world : World) :
    resume roster settings petition ⟨handler, rest, phase⟩ world =
      (authenticator.resume petition.caller phase world).andThen
        (fun phase => ⟨handler, rest, phase⟩) (follow roster settings petition handler rest) := by
  simp only [resume, hfind]
  rfl

theorem Outcome.through_eq
    (h : Outcome roster settings petition session world rest worlds outcome) :
    through (resume roster settings petition) worlds
      (tryAll roster settings petition rest session world) = outcome := by
  cases h with
  | exhausted => exact through_done ..
  | unknown hfind => simp only [tryAll, hfind, through_done]
  | disabled hfind henabled =>
      simp only [tryAll, hfind, henabled, Bool.not_false, if_true, through_done]
  | @judged handler rest authenticator judgement world' before after hserves hjudges hne =>
      rw [tryAll_served hserves, hjudges.through_andThen (resume_served hserves.found),
        follow_judged hne, through_done]
  | waiting hserves hwaits =>
      rw [tryAll_served hserves]
      exact through_andThen_paused (resume_served hserves.found) hwaits

theorem AllPass.through_eq
    (h : AllPass roster settings petition session' world' passed session world before)
    (rest : List Handler) (worlds : List World) :
    through (resume roster settings petition) (before ++ worlds)
        (tryAll roster settings petition (passed ++ rest) session world) =
      through (resume roster settings petition) worlds
        (tryAll roster settings petition rest session' world') := by
  induction h with
  | none => rfl
  | next hserves hpasses _ ih =>
      rw [List.cons_append, List.append_assoc, tryAll_served hserves,
        hpasses.through_andThen (resume_served hserves.found)]
      exact ih

/-- A handler decides, or it passes the petition on. -/
theorem decides_or_passes (roster : Roster φ) (settings : Settings.Store) (petition : Petition)
    (handler : Handler) (rest : List Handler) (session : Session) (world : World)
    (worlds : List World) :
    (∃ outcome, Outcome roster settings petition session world (handler :: rest) worlds outcome) ∨
      ∃ authenticator session₁ world₁ before after, worlds = before ++ after ∧
        Serves roster settings handler authenticator ∧
        Completes (authenticator.resume petition.caller) (.ok .notResponsible, session₁) world₁
          before (call authenticator settings petition handler session world) := by
  cases hfind : roster.find? handler.authenticator with
  | none => exact .inl ⟨_, .unknown hfind⟩
  | some authenticator =>
      cases henabled : settings.isEnabled handler.authenticator with
      | false => exact .inl ⟨_, .disabled hfind henabled⟩
      | true =>
          have hserves : Serves roster settings handler authenticator := ⟨hfind, henabled⟩
          generalize hrun : through (authenticator.resume petition.caller) worlds
            (call authenticator settings petition handler session world) = run
          obtain ⟨progress, world₁⟩ := run
          cases progress with
          | paused phase wait => exact .inl ⟨_, .waiting hserves hrun⟩
          | done judgement =>
              obtain ⟨before, after, rfl, hjudges⟩ := completes_of_through hrun
              by_cases hne : judgement.1 = .ok .notResponsible
              · obtain ⟨verdict, session₁⟩ := judgement
                obtain rfl : verdict = .ok .notResponsible := hne
                exact .inr ⟨authenticator, session₁, world₁, before, after, rfl, hserves, hjudges⟩
              · exact .inl ⟨_, .judged hserves hjudges hne⟩

/-- Whatever the handlers do, some of them pass and what is left comes to an outcome. -/
theorem dispatched_of_tryAll (roster : Roster φ) (settings : Settings.Store)
    (petition : Petition) (handlers : List Handler) (session : Session) (world : World)
    (worlds : List World) :
    ∃ passed rest session₁ world₁ before after, handlers = passed ++ rest ∧
      worlds = before ++ after ∧
      AllPass roster settings petition session₁ world₁ passed session world before ∧
      Outcome roster settings petition session₁ world₁ rest after
        (through (resume roster settings petition) worlds
          (tryAll roster settings petition handlers session world)) := by
  induction handlers generalizing session world worlds with
  | nil =>
      have hexhausted : Outcome roster settings petition session world [] worlds _ := .exhausted
      exact ⟨[], [], session, world, [], worlds, rfl, rfl, .none,
        hexhausted.through_eq.symm ▸ hexhausted⟩
  | cons handler rest ih =>
      rcases decides_or_passes roster settings petition handler rest session world worlds with
        ⟨outcome, hdecides⟩ |
        ⟨authenticator, session₁, world₁, before, after, rfl, hserves, hpasses⟩
      · exact ⟨[], handler :: rest, session, world, [], worlds, rfl, rfl, .none,
          hdecides.through_eq.symm ▸ hdecides⟩
      · obtain ⟨passed, rest', session₂, world₂, before', after', rfl, rfl, hpass, houtcome⟩ :=
          ih session₁ (notePassed petition.rule.id handler world₁) after
        refine ⟨handler :: passed, rest', session₂, world₂, before ++ before', after', rfl,
          (List.append_assoc ..).symm, .next hserves hpasses hpass, ?_⟩
        rw [tryAll_served hserves, hpasses.through_andThen (resume_served hserves.found)]
        exact houtcome

theorem run_eq_dispatch :
    run roster settings petition session world worlds = outcome ↔
      ∃ passed rest, Dispatched roster settings petition session world worlds passed rest
        outcome := by
  constructor
  · rintro rfl
    obtain ⟨passed, rest, h⟩ := dispatched_of_tryAll roster settings petition
      petition.rule.handlers session world worlds
    exact ⟨passed, rest, h⟩
  · rintro ⟨passed, rest, session₁, world₁, before, after, hhandlers, rfl, hpass, houtcome⟩
    rw [run, start, hhandlers, hpass.through_eq, houtcome.through_eq]

end

/-! ## Which handlers are called -/

/-- The handlers that are called in work, from a world on: each stretch adds those that it calls
to the list of the called. -/
def calls {ψ ρ : Type} (resume : ψ → World → Stretch ψ ρ) (begun : World) :
    List World → Stretch ψ ρ → List Handler
  | _, (.done _, world) => world.called.drop begun.called.length
  | [], (.paused _ _, world) => world.called.drop begun.called.length
  | next :: worlds, (.paused phase _, world) =>
      world.called.drop begun.called.length ++ calls resume next worlds (resume phase next)

/-- The handler that decides, if there is one and it is called. -/
def called (roster : Roster φ) (settings : Settings.Store) : List Handler → List Handler
  | [] => []
  | handler :: _ =>
      if (roster.find? handler.authenticator).isSome && settings.isEnabled handler.authenticator
      then [handler] else []

/-- The authenticators of handlers call no handlers of their own. -/
def AllCallNone (roster : Roster φ) (handlers : List Handler) : Prop :=
  ∀ handler ∈ handlers, ∀ authenticator, roster.find? handler.authenticator = some authenticator →
    authenticator.CallsNone

section

variable {ψ ρ τ : Type} {resume : φ → World → Stretch φ ρ} {resume' : ψ → World → Stretch ψ τ}
  {within : φ → ψ} {next : ρ → World → Stretch ψ τ} {begun : World} {new : List Handler}

/-- Handlers that were called before a stretch began are called no less when it is looked at from
further back. -/
theorem calls_append {begun' : World} (hnew : begun'.called = begun.called ++ new)
    {stretch : Stretch ψ τ} (hmore : begun'.called <+: stretch.2.called) (worlds : List World) :
    calls resume' begun worlds stretch = new ++ calls resume' begun' worlds stretch := by
  obtain ⟨progress, world⟩ := stretch
  obtain ⟨later, hlater⟩ := hmore
  have hall : world.called.drop begun.called.length = new ++ later := by
    rw [← hlater, hnew, List.append_assoc, List.drop_left]
  have hrest : world.called.drop begun'.called.length = later := by
    rw [← hlater, List.drop_left]
  cases progress with
  | done result => simp only [calls, hall, hrest]
  | paused phase wait =>
      cases worlds with
      | nil => simp only [calls, hall, hrest]
      | cons next worlds => simp only [calls, hall, hrest, List.append_assoc]

theorem calls_of_completes {result : ρ} {world' : World} {before : List World}
    {stretch : Stretch φ ρ}
    (hresume : ∀ phase world,
      resume' (within phase) world = (resume phase world).andThen within next)
    (hnone : ∀ phase world, (resume phase world).2.called = world.called)
    (h : Completes resume result world' before stretch)
    (hnew : stretch.2.called = begun.called ++ new)
    (hmore : world'.called <+: (next result world').2.called) (after : List World) :
    calls resume' begun (before ++ after) (stretch.andThen within next) =
      new ++ calls resume' world' after (next result world') := by
  induction h generalizing begun new with
  | done => exact calls_append hnew hmore after
  | @paused phase wait world next' worlds _ ih =>
      have hstill : (resume phase next').2.called = next'.called ++ [] := by
        rw [hnone, List.append_nil]
      have hlater := ih hstill
      rw [List.nil_append] at hlater
      rw [List.cons_append, andThen_paused, calls, hresume, hlater, hnew, List.drop_left]

theorem calls_of_paused {phase : φ} {wait : Transport.Wait} {world' : World}
    (hresume : ∀ phase world,
      resume' (within phase) world = (resume phase world).andThen within next)
    (hnone : ∀ phase world, (resume phase world).2.called = world.called)
    {worlds : List World} {stretch : Stretch φ ρ}
    (h : through resume worlds stretch = (.paused phase wait, world'))
    (hnew : stretch.2.called = begun.called ++ new) :
    calls resume' begun worlds (stretch.andThen within next) = new := by
  induction worlds generalizing stretch begun new with
  | nil =>
      rw [through_nil] at h
      obtain rfl := h
      rw [andThen_paused, calls, hnew, List.drop_left]
  | cons next' worlds ih =>
      obtain ⟨progress, world⟩ := stretch
      cases progress with
      | done result => cases h
      | paused phase' wait' =>
          have hstill : (resume phase' next').2.called = next'.called ++ [] := by
            rw [hnone, List.append_nil]
          have hlater := ih h hstill
          rw [andThen_paused, calls, hresume, hlater, hnew, List.drop_left, List.append_nil]

end

section

variable {roster : Roster φ} {settings : Settings.Store} {petition : Petition}
  {handler : Handler} {handlers passed rest : List Handler} {authenticator : Authenticator φ}
  {session session' : Session} {world world' : World} {worlds before : List World}
  {outcome : Stretch (Pending φ) Judgement}

theorem AllCallNone.tail (h : AllCallNone roster (handler :: handlers)) :
    AllCallNone roster handlers :=
  fun handler' hmem => h handler' (List.mem_cons_of_mem _ hmem)

theorem call_called (h : authenticator.CallsNone) (settings : Settings.Store)
    (petition : Petition) (handler : Handler) (session : Session) (world : World) :
    (call authenticator settings petition handler session world).2.called =
      world.called ++ [handler] :=
  h.start ..

theorem called_grows (hnone : AllCallNone roster handlers) (settings : Settings.Store)
    (petition : Petition) (session : Session) (world : World) :
    world.called <+: (tryAll roster settings petition handlers session world).2.called := by
  induction handlers generalizing session world with
  | nil => exact List.prefix_rfl
  | cons handler rest ih =>
      cases hfind : roster.find? handler.authenticator with
      | none =>
          simp only [tryAll, hfind]
          exact List.prefix_rfl
      | some authenticator =>
          cases henabled : settings.isEnabled handler.authenticator with
          | false =>
              simp only [tryAll, hfind, henabled, Bool.not_false, if_true]
              exact List.prefix_rfl
          | true =>
              have hcall := call_called (hnone handler List.mem_cons_self authenticator hfind)
                settings petition handler session world
              rw [tryAll_served ⟨hfind, henabled⟩]
              generalize call authenticator settings petition handler session world = stretch
                at hcall
              obtain ⟨progress, world₁⟩ := stretch
              have hadded : world.called <+: world₁.called := ⟨[handler], hcall.symm⟩
              cases progress with
              | paused phase wait => exact hadded
              | done judgement =>
                  rw [andThen_done]
                  unfold follow
                  split
                  · exact hadded.trans (ih hnone.tail _ (notePassed _ handler world₁))
                  · exact hadded

theorem Outcome.calls_eq
    (h : Outcome roster settings petition session world rest worlds outcome)
    (hnone : AllCallNone roster rest) :
    calls (resume roster settings petition) world worlds
      (tryAll roster settings petition rest session world) = called roster settings rest := by
  cases h with
  | exhausted => simp [tryAll, calls, called, noteExhausted, World.note]
  | unknown hfind => simp [tryAll, hfind, calls, called]
  | disabled hfind henabled => simp [tryAll, hfind, henabled, calls, called]
  | @judged handler rest authenticator judgement world' before after hserves hjudges hne =>
      have hcalls := hnone handler List.mem_cons_self authenticator hserves.found
      have hmore : world'.called <+:
          (follow roster settings petition handler rest judgement world').2.called :=
        (follow_judged hne).symm ▸ List.prefix_rfl
      rw [tryAll_served hserves, calls_of_completes (resume_served hserves.found)
        (hcalls.resume _) hjudges (call_called hcalls ..) hmore, follow_judged hne]
      simp [calls, called, hserves.found, hserves.enabled]
  | waiting hserves hwaits =>
      have hcalls := hnone _ List.mem_cons_self _ hserves.found
      rw [tryAll_served hserves, calls_of_paused (resume_served hserves.found)
        (hcalls.resume _) hwaits (call_called hcalls ..)]
      simp [called, hserves.found, hserves.enabled]

theorem AllPass.calls_eq
    (h : AllPass roster settings petition session' world' passed session world before)
    (hnone : AllCallNone roster (passed ++ rest)) (worlds : List World) :
    calls (resume roster settings petition) world (before ++ worlds)
        (tryAll roster settings petition (passed ++ rest) session world) =
      passed ++ calls (resume roster settings petition) world' worlds
        (tryAll roster settings petition rest session' world') := by
  induction h with
  | none => rfl
  | @next handler later authenticator _ session₁ _ world₁ _ _ hserves hpasses _ ih =>
      have hcalls := hnone handler List.mem_cons_self authenticator hserves.found
      have htail : AllCallNone roster (later ++ rest) := hnone.tail
      have hlater := called_grows htail settings petition session₁
        (notePassed petition.rule.id handler world₁)
      have hnoted : (notePassed petition.rule.id handler world₁).called = world₁.called ++ [] :=
        (List.append_nil _).symm
      rw [List.cons_append, List.append_assoc, tryAll_served hserves,
        calls_of_completes (resume_served hserves.found) (hcalls.resume _) hpasses
          (call_called hcalls ..) hlater]
      refine congrArg (handler :: ·) ?_
      exact (calls_append hnoted hlater _).trans (ih htail)

/-- A run calls the handlers that pass and the one that decides, in order and each once. -/
theorem Dispatched.calls_eq
    (h : Dispatched roster settings petition session world worlds passed rest outcome)
    (hnone : AllCallNone roster petition.rule.handlers) :
    calls (resume roster settings petition) world worlds
      (start roster settings petition session world) = passed ++ called roster settings rest := by
  obtain ⟨session₁, world₁, before, after, hhandlers, rfl, hpass, houtcome⟩ := h
  rw [hhandlers] at hnone
  have hrest : AllCallNone roster rest :=
    fun handler hmem => hnone handler (List.mem_append_right _ hmem)
  rw [start, hhandlers, hpass.calls_eq hnone, houtcome.calls_eq hrest]

end

/-! ## Handlers after the one that decides -/

/-- The petition under a rule with other handlers. -/
def Petition.under (petition : Petition) (handlers : List Handler) : Petition :=
  { petition with rule := { petition.rule with handlers } }

section

variable {roster roster' : Roster φ} {settings : Settings.Store} {petition : Petition}
  {handler : Handler} {handlers passed rest : List Handler} {authenticator : Authenticator φ}
  {session session' : Session} {world world' : World} {worlds before : List World}
  {judgement : Judgement}

theorem Serves.congr (h : Serves roster settings handler authenticator)
    (hsame : roster'.find? handler.authenticator = roster.find? handler.authenticator) :
    Serves roster' settings handler authenticator :=
  ⟨hsame.trans h.found, h.enabled⟩

theorem AllPass.congr
    (h : AllPass roster settings petition session' world' passed session world before)
    (hsame : ∀ earlier ∈ passed,
      roster'.find? earlier.authenticator = roster.find? earlier.authenticator)
    (handlers : List Handler) :
    AllPass roster' settings (petition.under handlers) session' world' passed session world
      before := by
  induction h with
  | none => exact .none
  | @next handler rest _ _ _ _ _ _ _ hserves hpasses _ ih =>
      exact .next (hserves.congr (hsame handler List.mem_cons_self)) hpasses
        (ih fun earlier hmem => hsame earlier (List.mem_cons_of_mem _ hmem))

/-- What the deciding handler makes of a petition depends on no other handler. -/
theorem Outcome.congr
    (h : Outcome roster settings petition session world (handler :: rest) worlds
      (.done judgement, world'))
    (hsame : roster'.find? handler.authenticator = roster.find? handler.authenticator)
    (others handlers : List Handler) :
    Outcome roster' settings (petition.under handlers) session world (handler :: others) worlds
      (.done judgement, world') := by
  cases h with
  | unknown hfind => exact .unknown (hsame.trans hfind)
  | disabled hfind henabled => exact .disabled (hsame.trans hfind) henabled
  | judged hserves hjudges hne => exact .judged (hserves.congr hsame) hjudges hne

/-- A run that is over is the same with other handlers after the one that has decided, and with
other authenticators for them. -/
theorem Dispatched.congr
    (h : Dispatched roster settings petition session world worlds passed (handler :: rest)
      (.done judgement, world'))
    (hsame : ∀ earlier ∈ passed ++ [handler],
      roster'.find? earlier.authenticator = roster.find? earlier.authenticator)
    (others : List Handler) :
    run roster' settings (petition.under (passed ++ handler :: others)) session world worlds =
      (.done judgement, world') := by
  obtain ⟨session₁, world₁, before, after, -, hworlds, hpass, houtcome⟩ := h
  have hpassed : ∀ earlier ∈ passed,
      roster'.find? earlier.authenticator = roster.find? earlier.authenticator :=
    fun earlier hmem => hsame earlier (List.mem_append_left _ hmem)
  have hhandler : roster'.find? handler.authenticator = roster.find? handler.authenticator :=
    hsame handler (List.mem_append_right _ List.mem_cons_self)
  refine run_eq_dispatch.mpr ⟨passed, handler :: others, session₁, world₁, before, after, rfl,
    hworlds, hpass.congr hpassed _, houtcome.congr hhandler others _⟩

end

/-! ## The theorem -/

/-- **The first handler that does not pass a petition on decides.**  For every roster, settings,
rule, petition and behaviour of the authenticators, and whatever happens in the pauses, a run of
a chain comes out exactly as it is dispatched: handlers at the front of the rule are known and
enabled, each is called once, in order and with its own configuration, and is not responsible;
the first of the others is unknown, disabled, or called and judges otherwise, and its judgement
comes out unchanged, or there is none and the chain is not responsible.  The handlers that the
run adds to the list of the called are those that pass and the one that decides, when it is
called.  What comes after the one that decides is neither looked up nor called: the run is the
same with any other handlers in its place and any other authenticators for them. -/
theorem first_responsible_decides (roster : Roster φ) (settings : Settings.Store)
    (petition : Petition) (session : Session) (world : World) (worlds : List World) :
    (∀ outcome, run roster settings petition session world worlds = outcome ↔
      ∃ passed rest, Dispatched roster settings petition session world worlds passed rest
        outcome) ∧
    (AllCallNone roster petition.rule.handlers → ∀ passed rest outcome,
      Dispatched roster settings petition session world worlds passed rest outcome →
      calls (resume roster settings petition) world worlds
        (start roster settings petition session world) =
          passed ++ called roster settings rest) ∧
    ∀ passed handler rest judgement world',
      Dispatched roster settings petition session world worlds passed (handler :: rest)
        (.done judgement, world') →
      ∀ (roster' : Roster φ) (others : List Handler),
        (∀ earlier ∈ passed ++ [handler],
          roster'.find? earlier.authenticator = roster.find? earlier.authenticator) →
        run roster' settings (petition.under (passed ++ handler :: others)) session world worlds =
          (.done judgement, world') := by
  refine ⟨fun outcome => run_eq_dispatch, ?_, ?_⟩
  · intro hnone passed rest outcome hdispatched
    exact hdispatched.calls_eq hnone
  · intro passed handler rest judgement world' hdispatched roster' others hsame
    exact hdispatched.congr hsame others

/-- One authenticator that is responsible for nothing, and two that are for all. -/
def fixedRoster : Roster Unit :=
  [(utf8 "first", .fixed _ { id := utf8 "first", verdict := .notResponsible }),
   (utf8 "second", .fixed _ { id := utf8 "second", subject := utf8 "carol" }),
   (utf8 "third", .fixed _ { id := utf8 "third", subject := utf8 "dave" })]

def fixedSettings : Settings.Store :=
  [(utf8 "first", { enabled := true }), (utf8 "second", { enabled := true })]

/-- The first passes, the second decides, the third is disabled, and the last is unknown. -/
def fixedPetition : Petition where
  request := {}
  rule :=
    { id := utf8 "r"
      handlers := [⟨utf8 "first", utf8 "1"⟩, ⟨utf8 "second", utf8 "2"⟩, ⟨utf8 "third", []⟩,
        ⟨utf8 "ghost", []⟩] }

/-- The world of the run after the first handler has passed. -/
def passedWorld : World :=
  notePassed (utf8 "r") ⟨utf8 "first", utf8 "1"⟩ { called := [⟨utf8 "first", utf8 "1"⟩] }

theorem fixedRoster_callsNone (handlers : List Handler) : AllCallNone fixedRoster handlers := by
  intro handler _ authenticator hfind
  simp only [fixedRoster, Roster.find?] at hfind
  split at hfind
  · exact Option.some.inj hfind ▸ Authenticator.fixed_callsNone _
  · split at hfind
    · exact Option.some.inj hfind ▸ Authenticator.fixed_callsNone _
    · split at hfind
      · exact Option.some.inj hfind ▸ Authenticator.fixed_callsNone _
      · cases hfind

theorem fixedPetition_dispatched :
    Dispatched fixedRoster fixedSettings fixedPetition {} {} []
      [⟨utf8 "first", utf8 "1"⟩]
      [⟨utf8 "second", utf8 "2"⟩, ⟨utf8 "third", []⟩, ⟨utf8 "ghost", []⟩]
      (.done (.ok .success, { subject := utf8 "carol" }),
        { passedWorld with called := passedWorld.called ++ [⟨utf8 "second", utf8 "2"⟩] }) := by
  refine ⟨{}, passedWorld, [], [], rfl, rfl, ?_, ?_⟩
  · change AllPass _ _ _ _ _ _ _ _ ([] ++ [])
    exact .next ⟨rfl, rfl⟩ .done .none
  · change Outcome _ _ _ _ _ _ ([] ++ []) _
    exact .judged ⟨rfl, rfl⟩ .done nofun

/-- The second handler decides: the first two are called, each once, and nothing depends on
those after them. -/
theorem second_handler_decides :
    calls (resume fixedRoster fixedSettings fixedPetition) {} []
        (start fixedRoster fixedSettings fixedPetition {} {}) =
      [⟨utf8 "first", utf8 "1"⟩, ⟨utf8 "second", utf8 "2"⟩] ∧
    run (fixedRoster.take 2) fixedSettings
        (fixedPetition.under [⟨utf8 "first", utf8 "1"⟩, ⟨utf8 "second", utf8 "2"⟩]) {} {} [] =
      (.done (.ok .success, { subject := utf8 "carol" }),
        { passedWorld with called := passedWorld.called ++ [⟨utf8 "second", utf8 "2"⟩] }) := by
  obtain ⟨-, hcalls, hlocal⟩ :=
    first_responsible_decides fixedRoster fixedSettings fixedPetition {} {} []
  constructor
  · exact hcalls (fixedRoster_callsNone _) _ _ _ fixedPetition_dispatched
  · refine hlocal _ _ _ _ _ fixedPetition_dispatched (fixedRoster.take 2) [] ?_
    intro earlier hmem
    rcases List.mem_cons.mp hmem with rfl | hmem
    · rfl
    · obtain rfl := List.mem_singleton.mp hmem
      rfl

end Chain

end BearerAuth
