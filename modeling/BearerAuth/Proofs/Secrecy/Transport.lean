import BearerAuth.Proofs.Secrecy.World
import BearerAuth.Transport.Authorized
import BearerAuth.Transport.Retry
import BearerAuth.Transport.Wire

/-!
# Paired exchanges

Two peers are paired (`Peers`) when they answer alike what is alike: with the same failure, or
after the same delay with responses that are the same but for the token that they issue.  Over
paired peers every transport does the same in paired worlds: it pauses in paired phases for the
same things, ends with paired replies, and leaves paired worlds (`Transports`).  There is one lemma
for each kind of transport, and `Stretches.andThen` puts what follows a reply behind it.
-/

namespace BearerAuth

open Transport

namespace Pairing

/-! ## Replies -/

/-- The same failure, or responses that are the same but for the token that they issue. -/
inductive Replies (σ : Pairing) : Reply → Reply → Prop
  | failure (failure : Failure) : Replies σ (.error failure) (.error failure)
  | response {status : Int} {body body' : Bytes} : Sources σ.Answers body body' →
      Replies σ (.ok ⟨status, body⟩) (.ok ⟨status, body'⟩)

/-- Replies that come after the same delay. -/
structure Deliveries (σ : Pairing) (delivery delivery' : Delivery) : Prop where
  delay : delivery.delay = delivery'.delay
  reply : σ.Replies delivery.reply delivery'.reply

/-- Peers that answer alike what is alike. -/
def Peers (σ : Pairing) (peer peer' : Peer) : Prop :=
  ∀ history history' exchange exchange', List.Forall₂ σ.Exchanges history history' →
    σ.Exchanges exchange exchange' →
    Outcomes σ.Deliveries (peer history exchange) (peer' history' exchange')

section

variable {σ : Pairing}

theorem issued_ofMembers {members members' : Json.Members}
    (h : Fields (utf8 "access_token") (Strings σ.Tokens) members members') :
    Outcomes σ.IssuedPairs (IssuedToken.ofMembers members) (IssuedToken.ofMembers members') := by
  rw [IssuedToken.ofMembers, IssuedToken.ofMembers,
    h.get?_ne (show utf8 "expires_in" ≠ utf8 "access_token" by decide)]
  have hfound := h.get?_key
  generalize members.get? (utf8 "access_token") = found at hfound ⊢
  generalize members'.get? (utf8 "access_token") = found' at hfound ⊢
  cases hfound with
  | none => exact .error _
  | @some value value' hvalues =>
      cases hvalues with
      | text htokens =>
          simp only [htokens.isEmpty_eq]
          split
          · exact .error _
          · exact .ok ⟨htokens, rfl⟩
      | same hnot =>
          cases value with
          | text s => exact absurd rfl (hnot s)
          | _ => exact .error _

theorem issued_ofResponse (status : Int) {body body' : Bytes} (h : Sources σ.Answers body body') :
    Outcomes σ.IssuedPairs (IssuedToken.ofResponse ⟨status, body⟩)
      (IssuedToken.ofResponse ⟨status, body'⟩) := by
  obtain ⟨value, value', hvalue, hvalue', hanswers⟩ | ⟨rfl, fault, hfault⟩ := h.parsed
  · simp only [IssuedToken.ofResponse, hvalue, hvalue']
    split
    · exact .error _
    · cases hanswers with
      | object hfields => exact issued_ofMembers hfields
      | same hnot =>
          cases value with
          | object members => exact absurd rfl (hnot members)
          | _ => exact .error _
  · simp only [IssuedToken.ofResponse, hfault]
    split
    · exact .error _
    · exact .error _

theorem Replies.issued {reply reply' : Reply} (h : σ.Replies reply reply') :
    Outcomes σ.IssuedPairs (IssuedToken.ofReply reply) (IssuedToken.ofReply reply') := by
  cases h with
  | failure failure => exact .error failure
  | @response status body body' hbodies =>
      simp only [IssuedToken.ofReply]
      have hissued := issued_ofResponse status hbodies
      generalize IssuedToken.ofResponse ⟨status, body⟩ = outcome at hissued ⊢
      generalize IssuedToken.ofResponse ⟨status, body'⟩ = outcome' at hissued ⊢
      cases hissued with
      | ok hissued => exact .ok hissued
      | error fault => exact .error _

end

/-! ## Stretches of work -/

section

variable {φ φ' ψ ψ' ρ ρ' τ τ' : Type}

/-- Work that is done with paired results, or pauses for the same in paired phases; the worlds are
paired either way. -/
inductive Stretches (σ : Pairing) (phases : φ → φ' → Prop) (results : ρ → ρ' → Prop) :
    Stretch φ ρ → Stretch φ' ρ' → Prop
  | done {result : ρ} {result' : ρ'} {world world' : World} : results result result' →
      σ.Worlds world world' →
      Stretches σ phases results (.done result, world) (.done result', world')
  | paused {phase : φ} {phase' : φ'} {world world' : World} (wait : Wait) : phases phase phase' →
      σ.Worlds world world' →
      Stretches σ phases results (.paused phase wait, world) (.paused phase' wait, world')

variable {σ : Pairing} {phases : φ → φ' → Prop} {results : ρ → ρ' → Prop}
  {phases₂ : ψ → ψ' → Prop} {results₂ : τ → τ' → Prop}

theorem Stretches.yield {phase : φ} {phase' : φ'} {world world' : World}
    (hphases : phases phase phase') (hworlds : σ.Worlds world world') :
    σ.Stretches phases results (.yield phase world) (.yield phase' world') := by
  rw [Stretch.yield, Stretch.yield, ← hworlds.now]
  exact .paused _ hphases hworlds

theorem Stretches.andThen {stretch : Stretch φ ρ} {stretch' : Stretch φ' ρ'} {within : φ → ψ}
    {within' : φ' → ψ'} {next : ρ → World → Stretch ψ τ} {next' : ρ' → World → Stretch ψ' τ'}
    (h : σ.Stretches phases results stretch stretch')
    (hwithin : ∀ phase phase', phases phase phase' → phases₂ (within phase) (within' phase'))
    (hnext : ∀ result result' world world', results result result' → σ.Worlds world world' →
      σ.Stretches phases₂ results₂ (next result world) (next' result' world')) :
    σ.Stretches phases₂ results₂ (stretch.andThen within next)
      (stretch'.andThen within' next') := by
  cases h with
  | done hresults hworlds => exact hnext _ _ _ _ hresults hworlds
  | paused wait hphases hworlds => exact .paused wait (hwithin _ _ hphases) hworlds

theorem Stretches.inside {stretch : Stretch φ ρ} {stretch' : Stretch φ' ρ'} {within : φ → ψ}
    {within' : φ' → ψ'} (h : σ.Stretches phases results stretch stretch')
    (hwithin : ∀ phase phase', phases phase phase' → phases₂ (within phase) (within' phase')) :
    σ.Stretches phases₂ results
      (stretch.andThen within fun result world => (.done result, world))
      (stretch'.andThen within' fun result world => (.done result, world)) :=
  h.andThen hwithin fun _ _ _ _ hresults hworlds => .done hresults hworlds

theorem Stretches.ite {condition : Prop} [Decidable condition] {stretch other : Stretch φ ρ}
    {stretch' other' : Stretch φ' ρ'}
    (h : condition → σ.Stretches phases results stretch stretch')
    (hother : ¬ condition → σ.Stretches phases results other other') :
    σ.Stretches phases results (if condition then stretch else other)
      (if condition then stretch' else other') := by
  by_cases hcondition : condition
  · rw [if_pos hcondition, if_pos hcondition]
    exact h hcondition
  · rw [if_neg hcondition, if_neg hcondition]
    exact hother hcondition

theorem Stretches.worlds {stretch : Stretch φ ρ} {stretch' : Stretch φ' ρ'}
    (h : σ.Stretches phases results stretch stretch') : σ.Worlds stretch.2 stretch'.2 := by
  cases h with
  | done _ hworlds => exact hworlds
  | paused _ _ hworlds => exact hworlds

end

/-- Transports that do the same with paired requests in paired worlds. -/
structure Transports (σ : Pairing) (transport transport' : Transport)
    (phases : transport.Phase → transport'.Phase → Prop) : Prop where
  start : ∀ caller url {request request' world world'}, σ.Requests request request' →
    σ.Worlds world world' → σ.Stretches phases σ.Replies
      (transport.start caller url request world) (transport'.start caller url request' world')
  resume : ∀ caller {phase phase' world world'}, phases phase phase' → σ.Worlds world world' →
    σ.Stretches phases σ.Replies (transport.resume caller phase world)
      (transport'.resume caller phase' world')

/-! ## The wire -/

section

variable {σ : Pairing}

theorem deliver_stretches {delivery delivery' : Delivery} {world world' : World}
    (h : σ.Deliveries delivery delivery') (hworlds : σ.Worlds world world') (caller : Caller) :
    σ.Stretches σ.Replies σ.Replies (Wire.deliver caller delivery world)
      (Wire.deliver caller delivery' world') := by
  rw [Wire.deliver, Wire.deliver, hworlds.canceled_eq, ← hworlds.now, ← h.delay]
  refine .ite (fun _ => .done (.failure _) hworlds) fun _ => ?_
  refine .ite (fun _ => .done (.failure _) hworlds) fun _ => ?_
  refine .ite (fun _ => .done h.reply hworlds) fun _ => ?_
  rw [Wire.ending, Wire.ending]
  cases caller.deadline with
  | none => exact .paused _ h.reply hworlds
  | some deadline =>
      simp only
      split
      · exact .paused _ (.failure _) hworlds
      · exact .paused _ h.reply hworlds

theorem wire_transports {peer peer' : Peer} (hpeers : σ.Peers peer peer') :
    σ.Transports (wire peer) (wire peer') σ.Replies := by
  constructor
  · intro caller url request request' world world' hrequests hworlds
    have hexchanges : σ.Exchanges ⟨world.now, url, request⟩ ⟨world'.now, url, request'⟩ :=
      ⟨hworlds.now, rfl, hrequests⟩
    have hsent : σ.Worlds { world with sent := world.sent ++ [⟨world.now, url, request⟩] }
        { world' with sent := world'.sent ++ [⟨world'.now, url, request'⟩] } :=
      { hworlds with sent := List.rel_append hworlds.sent (.cons hexchanges .nil) }
    -- a peer may go by all that was sent before, so that has to be paired as well
    have hanswers := hpeers _ _ _ _ hworlds.sent hexchanges
    simp only [wire]
    generalize peer world.sent ⟨world.now, url, request⟩ = answer at hanswers ⊢
    generalize peer' world'.sent ⟨world'.now, url, request'⟩ = answer' at hanswers ⊢
    cases hanswers with
    | error failure => exact .done (.failure _) hsent
    | ok hdeliveries => exact deliver_stretches hdeliveries hsent caller
  · intro caller reply reply' world world' hreplies hworlds
    simp only [wire, Wire.arrive, hworlds.canceled_eq]
    refine .done ?_ hworlds
    cases world.canceled caller with
    | true => exact .failure _
    | false => exact hreplies

end

/-! ## Retries -/

section

variable {σ : Pairing} {φ φ' : Type} {phases : φ → φ' → Prop}

/-- Calls that began at one instant, with paired requests for one URL. -/
structure Calls (σ : Pairing) (call call' : Retry.Call) : Prop where
  url : call.url = call'.url
  request : σ.Requests call.request call'.request
  began : call.began = call'.began

inductive Attempts (σ : Pairing) (phases : φ → φ' → Prop) : Retry.Phase φ → Retry.Phase φ' → Prop
  | attempting {call call' : Retry.Call} (attempt : Nat) (delay : Span) {phase : φ} {phase' : φ'} :
      σ.Calls call call' → phases phase phase' →
      Attempts σ phases (.attempting call attempt delay phase)
        (.attempting call' attempt delay phase')
  | resting {call call' : Retry.Call} (attempt : Nat) (delay : Span) : σ.Calls call call' →
      Attempts σ phases (.resting call attempt delay) (.resting call' attempt delay)

theorem settle_stretches {call call' : Retry.Call} {reply reply' : Reply} {world world' : World}
    (hcalls : σ.Calls call call') (hreplies : σ.Replies reply reply')
    (hworlds : σ.Worlds world world') (schedule : Settings.Schedule) (caller : Caller)
    (attempt : Nat) (delay : Span) :
    σ.Stretches (σ.Attempts phases) σ.Replies
      (Retry.settle schedule caller call attempt delay reply world)
      (Retry.settle schedule caller call' attempt delay reply' world') := by
  cases hreplies with
  | response hbodies => exact .done (.response hbodies) hworlds
  | failure failure =>
      simp only [Retry.settle, Retry.exceedsLimit, Retry.noteGivingUp, Retry.noteRetry,
        hworlds.canceled_eq, ← hworlds.now, ← hcalls.began, ← hcalls.url]
      refine .ite (fun _ => .done (.failure _) hworlds) fun _ => ?_
      refine .ite (fun _ => .done (.failure _) (hworlds.note _ _)) fun _ => ?_
      refine .ite (fun _ => .done (.failure _) hworlds) fun _ => ?_
      refine .ite (fun _ => .done (.failure _) hworlds) fun _ => ?_
      exact .paused _ (.resting attempt delay hcalls) (hworlds.note _ _)

theorem retried_transports {transport transport' : Transport}
    {phases : transport.Phase → transport'.Phase → Prop}
    (h : σ.Transports transport transport' phases) (schedule : Settings.Schedule) :
    σ.Transports (retried schedule transport) (retried schedule transport')
      (σ.Attempts phases) := by
  have hattempt {call call' : Retry.Call} {world world' : World} (hcalls : σ.Calls call call')
      (hworlds : σ.Worlds world world') (caller : Caller) (count : Nat) (delay : Span) :
      σ.Stretches (σ.Attempts phases) σ.Replies
        (Retry.attempt transport schedule caller call count delay world)
        (Retry.attempt transport' schedule caller call' count delay world') := by
    rw [Retry.attempt, Retry.attempt, ← hcalls.url]
    refine (h.start caller call.url hcalls.request hworlds).andThen ?_ ?_
    · intro phase phase' hphases
      exact .attempting count delay hcalls hphases
    · intro reply reply' world world' hreplies hworlds
      exact settle_stretches hcalls hreplies hworlds schedule caller count delay
  constructor
  · intro caller url request request' world world' hrequests hworlds
    have hcalls : σ.Calls ⟨url, request, world.now⟩ ⟨url, request', world'.now⟩ :=
      ⟨rfl, hrequests, hworlds.now⟩
    exact hattempt hcalls hworlds caller 1 schedule.baseDelay
  · intro caller phase phase' world world' hphases hworlds
    cases hphases with
    | attempting count delay hcalls hphases =>
        refine (h.resume caller hphases hworlds).andThen ?_ ?_
        · intro phase phase' hphases
          exact .attempting count delay hcalls hphases
        · intro reply reply' world world' hreplies hworlds
          exact settle_stretches hcalls hreplies hworlds schedule caller count delay
    | resting count delay hcalls =>
        simp only [retried, hworlds.canceled_eq]
        exact .ite (fun _ => .done (.failure _) hworlds)
          fun _ => hattempt hcalls hworlds caller (count + 1) _

end

/-! ## Tokens -/

section

variable {σ : Pairing}

inductive Acquisitions {φ φ' : Type} (phases : φ → φ' → Prop) :
    Acquire.Phase φ → Acquire.Phase φ' → Prop
  | fetching {phase : φ} {phase' : φ'} : phases phase phase' →
      Acquisitions phases (.fetching phase) (.fetching phase')
  | joining (seen : Nat) : Acquisitions phases (.joining seen) (.joining seen)
  | awaiting (seen : Nat) : Acquisitions phases (.awaiting seen) (.awaiting seen)
  | returning (ending : Acquire.Ending) :
      Acquisitions phases (.returning ending) (.returning ending)

theorem describe_eq {credentials credentials' : Credentials}
    {outcome outcome' : Except Failure IssuedToken}
    (hcredentials : σ.CredentialPairs credentials credentials')
    (h : Outcomes σ.IssuedPairs outcome outcome') :
    Acquire.describe credentials' outcome' = Acquire.describe credentials outcome := by
  cases h with
  | error failure => rw [Acquire.describe, Acquire.describe, hcredentials.rest]
  | ok hissued =>
      rw [Acquire.describe, Acquire.describe, hcredentials.rest, hissued.lifetime]

theorem Worlds.release {world world' : World} (h : σ.Worlds world world') (tickets : List Ticket) :
    σ.Worlds { world with released := world.released ++ tickets }
      { world' with released := world'.released ++ tickets } :=
  { h with released := by rw [h.released] }

theorem Worlds.publish {world world' : World} (h : σ.Worlds world world') (place : Nat)
    {outcome outcome' : Except Failure IssuedToken}
    (houtcomes : Outcomes σ.IssuedPairs outcome outcome') :
    σ.Worlds (Acquire.publish place outcome world) (Acquire.publish place outcome' world') := by
  have hgrants := h.grant place
  simp only [Acquire.publish, describe_eq hgrants.credentials houtcomes, hgrants.released_eq]
  refine Worlds.release ?_ _
  have hnoted := h.note (Acquire.describe (world.grant place).credentials outcome).1
    (Acquire.describe (world.grant place).credentials outcome).2
  refine hnoted.setGrant place ?_
  rw [← h.now]
  exact hgrants.publish _ houtcomes

section

variable {base base' : Transport} {phases : base.Phase → base'.Phase → Prop}

theorem finish_stretches {reply reply' : Reply} {world world' : World}
    (hreplies : σ.Replies reply reply') (hworlds : σ.Worlds world world') (place : Nat) :
    σ.Stretches (Acquisitions phases) Eq (Acquire.finish place reply world)
      (Acquire.finish place reply' world') := by
  have hissued := hreplies.issued
  refine .done ?_ (hworlds.publish place hissued)
  generalize IssuedToken.ofReply reply = outcome at hissued
  generalize IssuedToken.ofReply reply' = outcome' at hissued
  cases hissued with
  | ok => rfl
  | error failure => rfl

theorem start_acquisitions (h : σ.Transports base base' phases) {world world' : World}
    (hworlds : σ.Worlds world world') (place : Nat) (caller : Caller) :
    σ.Stretches (Acquisitions phases) Eq (Acquire.start base place caller world)
      (Acquire.start base' place caller world') := by
  have hgrants := hworlds.grant place
  simp only [Acquire.start, hgrants.busy_eq, ← hworlds.now, hgrants.isFresh_eq]
  refine .ite (fun _ => .done rfl hworlds) fun _ => .ite (fun _ => ?_) fun _ => ?_
  · rw [hgrants.published_eq]
    exact .yield (.joining _) hworlds
  · simp only [Acquire.fetch, hgrants.credentials.tokenUrl_eq]
    refine (h.start caller _ hgrants.credentials.request
      (hworlds.setGrant place hgrants.beginFetch)).andThen ?_ ?_
    · intro phase phase' hphases
      exact .fetching hphases
    · intro reply reply' world world' hreplies hworlds
      exact finish_stretches hreplies hworlds place

theorem await_stretches {world world' : World} (hworlds : σ.Worlds world world') (place : Nat)
    (caller : Caller) (seen : Nat) :
    σ.Stretches (Acquisitions phases) Eq (Acquire.await place caller seen world)
      (Acquire.await place caller seen world') := by
  have hgrants := hworlds.grant place
  simp only [Acquire.await, hgrants.published_eq]
  refine .ite (fun _ => ?_) fun _ => .yield (.awaiting seen) hworlds
  exact .paused _ (.awaiting seen) (hworlds.setGrant place (hgrants.join caller.ticket seen))

theorem conclude_alike {world world' : World} (hworlds : σ.Worlds world world') (place : Nat)
    (caller : Caller) (seen : Nat) :
    (Acquire.conclude place caller seen world).1 = (Acquire.conclude place caller seen world').1 ∧
      σ.Worlds (Acquire.conclude place caller seen world).2
        (Acquire.conclude place caller seen world').2 := by
  have hgrants := hworlds.grant place
  have hleft := hworlds.setGrant place (hgrants.leave caller.ticket)
  simp only [Acquire.conclude, Acquire.Ending.ofGrant, hgrants.published_eq, hgrants.givenUp_eq,
    hgrants.failure_eq, hleft.canceled_eq]
  split
  · exact ⟨rfl, hworlds⟩
  · exact ⟨rfl, hleft⟩

theorem resume_acquisitions (h : σ.Transports base base' phases) {world world' : World}
    (hworlds : σ.Worlds world world') (place : Nat) (caller : Caller)
    {phase : Acquire.Phase base.Phase} {phase' : Acquire.Phase base'.Phase}
    (hphases : Acquisitions phases phase phase') :
    σ.Stretches (Acquisitions phases) Eq (Acquire.resume base place caller phase world)
      (Acquire.resume base' place caller phase' world') := by
  cases hphases with
  | fetching hphases =>
      refine (h.resume caller hphases hworlds).andThen ?_ ?_
      · intro phase phase' hphases
        exact .fetching hphases
      · intro reply reply' world world' hreplies hworlds
        exact finish_stretches hreplies hworlds place
  | joining seen => exact await_stretches hworlds place caller seen
  | awaiting seen =>
      obtain ⟨hending, hleft⟩ := conclude_alike hworlds place caller seen
      simp only [Acquire.resume, hending]
      exact .yield (.returning _) hleft
  | returning ending =>
      cases ending with
      | abandoned => exact start_acquisitions h hworlds place caller
      | refreshed | failed _ | canceled | timedOut => exact .done rfl hworlds

/-! ## Authorized exchanges -/

inductive Errands (σ : Pairing) (phases : base.Phase → base'.Phase → Prop) :
    Authorized.Phase base.Phase → Authorized.Phase base'.Phase → Prop
  | acquiring (url : Url) {request request' : Request} {phase : Acquire.Phase base.Phase}
      {phase' : Acquire.Phase base'.Phase} : σ.Requests request request' →
      Acquisitions phases phase phase' →
      Errands σ phases (.acquiring url request phase) (.acquiring url request' phase')
  | acquired (url : Url) {request request' : Request} : σ.Requests request request' →
      Errands σ phases (.acquired url request) (.acquired url request')
  | bearing (url : Url) {request request' : Request} : σ.Requests request request' →
      Errands σ phases (.bearing url request) (.bearing url request')
  | sending {phase : base.Phase} {phase' : base'.Phase} : phases phase phase' →
      Errands σ phases (.sending phase) (.sending phase')

theorem authorize_pairs {grant grant' : Grant} {request request' : Request}
    (hgrants : σ.GrantPairs grant grant') (hrequests : σ.Requests request request') :
    σ.Requests (Authorized.authorize grant request) (Authorized.authorize grant' request') := by
  refine { hrequests with headers := ?_ }
  simp only [Authorized.authorize, Grant.headers, ← hgrants.token.isEmpty_eq]
  split
  · exact hrequests.headers
  · exact set_headerLines hrequests.headers ⟨rfl, .inr ⟨_, _, hgrants.token, rfl, rfl⟩⟩

theorem proceed_stretches {request request' : Request} {world world' : World}
    (hrequests : σ.Requests request request') (hworlds : σ.Worlds world world') (url : Url)
    (acquired : Acquire.Result) :
    σ.Stretches (σ.Errands phases) σ.Replies (Authorized.proceed url request acquired world)
      (Authorized.proceed url request' acquired world') := by
  cases acquired with
  | error failure => exact .done (.failure _) hworlds
  | ok => exact .yield (.acquired url hrequests) hworlds

theorem authorized_transports (h : σ.Transports base base' phases) (place : Nat) :
    σ.Transports (authorized base place) (authorized base' place) (σ.Errands phases) := by
  constructor
  · intro caller url request request' world world' hrequests hworlds
    refine (start_acquisitions h hworlds place caller).andThen ?_ ?_
    · intro phase phase' hphases
      exact .acquiring url hrequests hphases
    · rintro acquired _ world world' rfl hworlds
      exact proceed_stretches hrequests hworlds url acquired
  · intro caller phase phase' world world' hphases hworlds
    cases hphases with
    | acquiring url hrequests hphases =>
        refine (resume_acquisitions h hworlds place caller hphases).andThen ?_ ?_
        · intro phase phase' hphases
          exact .acquiring url hrequests hphases
        · rintro acquired _ world world' rfl hworlds
          exact proceed_stretches hrequests hworlds url acquired
    | acquired url hrequests =>
        exact .yield (.bearing url (authorize_pairs (hworlds.grant place) hrequests)) hworlds
    | bearing url hrequests =>
        refine (h.start caller url hrequests hworlds).inside ?_
        intro phase phase' hphases
        exact .sending hphases
    | sending hphases =>
        refine (h.resume caller hphases hworlds).inside ?_
        intro phase phase' hphases
        exact .sending hphases

end

end

end Pairing

end BearerAuth
