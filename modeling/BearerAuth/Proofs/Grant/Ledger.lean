import BearerAuth.Proofs.Grant.Attendance
import BearerAuth.Proofs.Grant.Provenance

/-!
# The books of a grant

A grant keeps books about its callers: how many fetches were begun and how many outcomes
published, whether a fetch is under way, who waits for it, the last token and whether the
last fetch was given up.  `Chronicle` is the history that the books are about: the token
requests that were handed to the transport, and the outcomes of those whose replies came.
`Ledger` says what the books say of it, and they do so after any number of steps in any
order (`books_balance`).
-/

namespace BearerAuth

open Transport Timeline

namespace Acquire

theorem token_ne_nil_of_reply {reply : Reply} {issued : IssuedToken}
    (h : IssuedToken.ofReply reply = .ok issued) : issued.token ≠ [] := by
  simp only [IssuedToken.ofReply] at h
  split at h
  · cases h
  · split at h
    · next hissued =>
        obtain rfl := Except.ok.inj h
        exact token_ne_nil hissued
    · cases h

/-! ## The ledger -/

/-- What the books of a grant say of its history, which is the token requests handed over and the
outcomes, and of the callers. -/
structure Ledger (credentials : Credentials) (handed : List Exchange) (history : List Outcome)
    (stands : Ticket → Role) (g : Grant) : Prop extends Attendance stands g where
  credentials : g.credentials = credentials
  /-- Every outcome is counted. -/
  published : g.published = history.length
  /-- A fetch that was begun has been published, or it is under way. -/
  begun : g.begun = g.published + if g.busy then 1 else 0
  /-- A fetch is one exchange, of the token request. -/
  handed : handed.length = g.begun ∧ ∀ exchange ∈ handed,
    exchange.url = g.credentials.tokenUrl ∧ exchange.request = g.credentials.request
  givenUp : g.givenUp = true ↔ ∃ failure, history.getLast? = some (.error failure) ∧
    (failure.reason = .canceled ∨ failure.reason = .timeout)
  noToken : g.token = [] ↔ ∀ issued, .ok issued ∉ history
  /-- The token is that of the last outcome with one. -/
  token : ∀ {earlier issued later}, history = earlier ++ .ok issued :: later →
    (∀ other, .ok other ∉ later) → g.token = issued.token

namespace Ledger

variable {credentials : Credentials} {handed : List Exchange} {history : List Outcome}
  {stands : Ticket → Role} {g g' : Grant} {i : Ticket} {after : Role}

open Function (update)

theorem opened (credentials : Credentials) :
    Ledger credentials [] [] (fun _ => .away) { credentials } where
  toAttendance := .nobody rfl rfl
  credentials := rfl
  published := rfl
  begun := rfl
  handed := ⟨rfl, nofun⟩
  givenUp := ⟨nofun, nofun⟩
  noToken := ⟨fun _ _ => List.not_mem_nil, fun _ => rfl⟩
  token := by
    intro earlier issued later hhistory
    simp at hhistory

theorem requeue (h : Ledger credentials handed history stands g) {queue : List Queued}
    (hattendance : Attendance (update stands i after) { g with queue }) :
    Ledger credentials handed history (update stands i after) { g with queue } :=
  { h with toAttendance := hattendance }

theorem begin (h : Ledger credentials handed history stands g) (hidle : g.busy = false)
    (now : Instant) :
    Ledger credentials (handed ++ [tokenExchange g now]) history (update stands i .fetching)
      g.beginFetch where
  toAttendance := h.toAttendance.begin hidle
  credentials := h.credentials
  published := h.published
  begun := by
    show g.begun + 1 = g.published + 1
    rw [h.begun, hidle]
    rfl
  handed := by
    obtain ⟨hlength, hall⟩ := h.handed
    refine ⟨by rw [List.length_append, hlength]; rfl, fun exchange hexchange => ?_⟩
    rcases List.mem_append.mp hexchange with hold | hnew
    · exact hall exchange hold
    · obtain rfl := List.mem_singleton.mp hnew
      exact ⟨rfl, rfl⟩
  givenUp := h.givenUp
  noToken := h.noToken
  token := h.token

theorem getLast?_concat {α : Type} {l : List α} {a b : α} :
    (l ++ [a]).getLast? = some b ↔ a = b := by
  simp

theorem publish (h : Ledger credentials handed history stands g) (hi : stands i = .fetching)
    (now : Instant) {outcome : Outcome}
    (houtcome : ∀ issued, outcome = .ok issued → issued.token ≠ []) :
    Ledger credentials handed (history ++ [outcome]) (update stands i .away)
      (g.publish now outcome) where
  toAttendance := h.toAttendance.publish hi now outcome
  credentials := (g.publish_credentials now outcome).trans h.credentials
  published := by
    rw [Grant.publish_published, h.published, List.length_append]
    rfl
  begun := by
    have hbusy : g.busy = true := h.busy.mpr ⟨i, hi⟩
    rw [Grant.publish_begun, Grant.publish_published, Grant.publish_busy, h.begun, hbusy]
    rfl
  handed := by
    rw [Grant.publish_begun, Grant.publish_credentials]
    exact h.handed
  givenUp := by
    simp only [getLast?_concat]
    cases outcome with
    | ok issued => exact ⟨nofun, nofun⟩
    | error failure =>
        show failure.isAbandonment = true ↔ _
        simp [Failure.isAbandonment]
  noToken := by
    cases outcome with
    | ok issued =>
        refine ⟨fun hnone => absurd hnone (houtcome issued rfl), fun hnone => ?_⟩
        exact absurd (List.mem_append_right _ List.mem_cons_self) (hnone issued)
    | error failure =>
        show g.token = [] ↔ _
        simp [h.noToken]
  token := by
    intro earlier issued later hhistory hlater
    rcases later.eq_nil_or_concat with rfl | ⟨later', last, hconcat⟩
    · obtain ⟨-, hlast⟩ := List.append_inj' hhistory rfl
      obtain rfl := (List.cons.inj hlast).1
      rfl
    · rw [List.concat_eq_append] at hconcat
      subst hconcat
      have hsplit : history ++ [outcome] = (earlier ++ .ok issued :: later') ++ [last] := by
        simpa using hhistory
      obtain ⟨hhistory', hlast⟩ := List.append_inj' hsplit rfl
      obtain rfl := (List.cons.inj hlast).1
      cases outcome with
      | ok other => exact absurd (List.mem_append_right _ List.mem_cons_self) (hlater other)
      | error failure =>
          refine h.token hhistory' ?_
          intro other hmem
          exact hlater other (List.mem_append_left _ hmem)

theorem deed {now : Instant} {exchange? : Option Exchange} {reply? : Option Reply}
    (h : Ledger credentials handed history stands g)
    (hdeed : Deed g i now (stands i) after exchange? reply? g') :
    Ledger credentials (handed ++ exchange?.toList)
      (history ++ (reply?.map IssuedToken.ofReply).toList) (update stands i after) g' := by
  have hattendance := h.toAttendance.deed hdeed
  have hquiet {queue : List Queued}
      (hattendance : Attendance (update stands i after) { g with queue }) :
      Ledger credentials (handed ++ []) (history ++ []) (update stands i after)
        { g with queue } := by
    rw [List.append_nil, List.append_nil]
    exact h.requeue hattendance
  cases hdeed with
  | asks _ hidle =>
      rw [Option.map_none, Option.toList_none, List.append_nil]
      exact h.begin hidle now
  | exchanges reply _ hidle =>
      have htoken (issued : IssuedToken) :
          IssuedToken.ofReply reply = .ok issued → issued.token ≠ [] := token_ne_nil_of_reply
      have hpublished := (h.begin (i := i) hidle now).publish (Function.update_self ..) now htoken
      rwa [Function.update_idem] at hpublished
  | receives reply hfetching =>
      rw [Option.toList_none, List.append_nil]
      exact h.publish hfetching now fun _ => token_ne_nil_of_reply
  | rests => exact hquiet hattendance
  | sees => exact hquiet hattendance
  | continues => exact hquiet hattendance
  | joins => exact hquiet hattendance
  | late => exact hquiet hattendance
  | hears => exact hquiet hattendance
  | leaves => exact hquiet hattendance

end Ledger

/-! ## The chronicle -/

section

variable {base : Transport} {place : Nat} {callers : List (Instant × Caller)}
  {start t t' : Timeline (Phase base.Phase) Result} {handed : List Exchange}
  {history : List Outcome}

/-- Steps from a start on, the token requests that were handed over in them, and the outcomes of
those whose replies came in them. -/
inductive Chronicle (base : Transport) (place : Nat) (callers : List (Instant × Caller))
    (start : Timeline (Phase base.Phase) Result) :
    List Exchange → List Outcome → Timeline (Phase base.Phase) Result → Prop
  | refl : Chronicle base place callers start [] [] start
  | step {handed : List Exchange} {history : List Outcome} {label : Option Ticket}
      {t t' : Timeline (Phase base.Phase) Result} {exchange? : Option Exchange}
      {reply? : Option Reply} :
      Chronicle base place callers start handed history t → Next label t t' →
      (∀ exchange, Hands place callers label t exchange ↔ exchange? = some exchange) →
      (∀ reply, Answers base place callers label t reply ↔ reply? = some reply) →
      Chronicle base place callers start (handed ++ exchange?.toList)
        (history ++ (reply?.map IssuedToken.ofReply).toList) t'

/-! ## Steps -/

/-- The books of the grant of callers on a timeline are right. -/
structure Booked (base : Transport) (place : Nat) (callers : List (Instant × Caller))
    (credentials : Credentials) (handed : List Exchange) (history : List Outcome) (g : Grant)
    (t : Timeline (Phase base.Phase) Result) : Prop extends Peopled base place callers g t where
  ledger : Ledger credentials handed history (roleAt t) g

variable {credentials : Credentials} {g : Grant}

/-- What is recorded as sent in a turn is what is handed over in it, where that is recorded. -/
theorem Turn.sent {caller : Caller} {w : World} {before : Option (Phase base.Phase)}
    {exchange? : Option Exchange} {reply? : Option Reply}
    {stretch : Stretch (Phase base.Phase) Result} (hbase : base.SendsOnce)
    (h : Turn base place caller w g before exchange? reply? stretch) :
    stretch.2.sent = w.sent ++ exchange?.toList := by
  have hstarts := hbase.sent_start caller g.credentials.tokenUrl g.credentials.request
    (w.setGrant place g.beginFetch)
  cases h with
  | serves => exact (List.append_nil _).symm
  | sees => exact (List.append_nil _).symm
  | asks _ hstart =>
      rw [hstart] at hstarts
      exact hstarts
  | exchanges _ hstart =>
      rw [hstart] at hstarts
      exact (publish_sent ..).trans hstarts
  | @continues phase _ _ _ hresume =>
      have hresumes := hbase.sent_resume caller phase w
      rw [hresume] at hresumes
      exact hresumes.trans (List.append_nil _).symm
  | @receives phase _ _ hresume =>
      have hresumes := hbase.sent_resume caller phase w
      rw [hresume] at hresumes
      exact (publish_sent ..).trans (hresumes.trans (List.append_nil _).symm)
  | joins => exact (List.append_nil _).symm
  | late => exact (List.append_nil _).symm
  | hears => exact (List.append_nil _).symm
  | leaves => exact (List.append_nil _).symm
  | ends => exact (List.append_nil _).symm

/-- Every course keeps the books, and enters what is handed over and answered in it. -/
theorem Booked.course (hbase : base.KeepsApart) (htickets : Ticketed callers)
    (h : Booked base place callers credentials handed history g t) {label : Option Ticket}
    {exchange? : Option Exchange} {reply? : Option Reply}
    (hcourse : Course base place callers g t label exchange? reply? t') :
    ∃ g', Booked base place callers credentials (handed ++ exchange?.toList)
      (history ++ (reply?.map IssuedToken.ofReply).toList) g' t' := by
  cases hcourse with
  | idles hidles =>
      refine ⟨g, h.toPeopled.idles hidles, ?_⟩
      rw [Option.map_none, Option.toList_none, List.append_nil, Option.toList_none,
        List.append_nil, hidles.roleAt_eq]
      exact h.ledger
  | @works i entry slot before _ _ stretch hentry hslot htakes hturn =>
      obtain ⟨g', hdeed, hrecords⟩ := hturn.deed hbase h.grant
      rw [htickets i entry hentry, ← htakes.phaseOf_eq, ← roleAt_of_slot hslot] at hdeed
      refine ⟨g', h.toPeopled.turned hrecords.grant, ?_⟩
      rw [roleAt_turned hslot, phaseOf_after]
      exact h.ledger.deed hdeed

/-- The books are right at the end of every chronicle. -/
theorem Chronicle.booked (hbase : base.KeepsApart) (htickets : Ticketed callers)
    (hfirst : Booked base place callers credentials [] [] g start)
    (h : Chronicle base place callers start handed history t) :
    ∃ g', Booked base place callers credentials handed history g' t ∧
      (base.SendsOnce → t.world.sent = start.world.sent ++ handed) := by
  induction h with
  | refl => exact ⟨g, hfirst, fun _ => (List.append_nil _).symm⟩
  | @step _ _ _ t t' _ _ _ hnext hhands hanswers ih =>
      obtain ⟨g₁, hbooked, hsent⟩ := ih
      obtain ⟨exchange?, reply?, hcourse, hhands', hanswers'⟩ := hbooked.toPeopled.course hnext
      obtain rfl := Option.ext fun exchange => (hhands' exchange).symm.trans (hhands exchange)
      obtain rfl := Option.ext fun reply => (hanswers' reply).symm.trans (hanswers reply)
      obtain ⟨g₂, hbooked'⟩ := hbooked.course hbase htickets hcourse
      refine ⟨g₂, hbooked', fun hsends => ?_⟩
      rw [← List.append_assoc, ← hsent hsends]
      cases hcourse with
      | idles hidles => exact hidles.sent.trans (List.append_nil _).symm
      | works _ _ _ hturn => exact hturn.sent hsends

/-- Whatever is reached has a chronicle. -/
theorem chronicle_of_reaches (hbase : base.KeepsApart) (htickets : Ticketed callers)
    (hfirst : Booked base place callers credentials [] [] g start) (h : Reaches start t) :
    ∃ handed history, Chronicle base place callers start handed history t := by
  induction h with
  | refl => exact ⟨[], [], .refl⟩
  | tail _ hnext ih =>
      obtain ⟨handed, history, hchronicle⟩ := ih
      obtain ⟨label, hnext⟩ := hnext
      obtain ⟨g', hbooked, -⟩ := hchronicle.booked hbase htickets hfirst
      obtain ⟨exchange?, reply?, -, hhands, hanswers⟩ := hbooked.toPeopled.course hnext
      exact ⟨_, _, .step hchronicle hnext hhands hanswers⟩

/-! ## The theorem -/

theorem Booked.first {world : World} {ties : Ties}
    (hfresh : world.grants[place]? = some { credentials }) :
    Booked base place callers credentials [] [] { credentials }
      (ofJobs world (crowd base place callers) ties) where
  jobs := rfl
  grant := hfresh
  ledger := roleAt_ofJobs ▸ .opened credentials

/-- **The books of a grant are right after any number of steps**, in any order of turns,
cancellations, deadlines and answers, over any transport that keeps to itself: there is a
chronicle of the token requests that were handed over and of the outcomes that have been
published, and the books say of it what `Ledger` says.  The fetches begun are those published
and the one under way, if there is one, and each of them is one exchange that was handed over;
the queue is empty unless one is under way, and everybody in it has seen all publications but
the next one; and the grant knows whether the last fetch was given up, and the last token.
Over a transport that records what it is handed, that is what was sent. -/
theorem books_balance (hbase : base.KeepsApart) (htickets : Ticketed callers)
    {world : World} {ties : Ties} (hfresh : world.grants[place]? = some { credentials })
    (hreach : Reaches (ofJobs world (crowd base place callers) ties) t) :
    (∃ handed history, Chronicle base place callers
      (ofJobs world (crowd base place callers) ties) handed history t) ∧
    ∀ handed history, Chronicle base place callers
        (ofJobs world (crowd base place callers) ties) handed history t →
      (∃ g, t.world.grants[place]? = some g ∧
        Ledger credentials handed history (roleAt t) g) ∧
      (base.SendsOnce → t.world.sent = world.sent ++ handed) := by
  have hfirst : Booked base place callers credentials [] [] { credentials }
      (ofJobs world (crowd base place callers) ties) := .first hfresh
  refine ⟨chronicle_of_reaches hbase htickets hfirst hreach, ?_⟩
  intro handed history hchronicle
  obtain ⟨g, hbooked, hsent⟩ := hchronicle.booked hbase htickets hfirst
  exact ⟨⟨g, hbooked.grant, hbooked.ledger⟩, hsent⟩

end

def issuingPeer : Peer := fun _ _ =>
  .ok { delay := 10, reply := .ok { body := utf8 "\x7b\"access_token\":\"t\"\x7d" } }

/-- The second caller is canceled while it waits for the token of the first. -/
def canceledCallers : List (Instant × Caller) :=
  [(0, { ticket := 0 }), (1, { ticket := 1, cancelAt := some 5 }), (2, { ticket := 2 })]

def canceledCrowd : Timeline (Phase (wire issuingPeer).Phase) Result :=
  ofJobs { grants := [{ credentials := { tokenUrl := {} } }] }
    (crowd (wire issuingPeer) 0 canceledCallers)

/-- The books after the second caller has left the queue. -/
theorem canceled_caller_leaves_queue :
    ∃ handed history g, Chronicle (wire issuingPeer) 0 canceledCallers canceledCrowd handed
        history (canceledCrowd.run 9) ∧
      (canceledCrowd.run 9).world.grants[0]? = some g ∧ g.queue = [⟨2, 0⟩] ∧
      Ledger { tokenUrl := {} } handed history (roleAt (canceledCrowd.run 9)) g ∧
      (canceledCrowd.run 9).world.sent = handed := by
  have htickets : Ticketed canceledCallers := by
    intro i entry hentry
    match i with
    | 0 =>
        obtain rfl := Option.some.inj hentry
        rfl
    | 1 =>
        obtain rfl := Option.some.inj hentry
        rfl
    | 2 =>
        obtain rfl := Option.some.inj hentry
        rfl
    | _ + 3 => cases hentry
  obtain ⟨⟨handed, history, hchronicle⟩, hall⟩ := books_balance (wire_keepsApart issuingPeer)
    htickets rfl (run_reaches 9 canceledCrowd)
  obtain ⟨⟨g, hg, hledger⟩, hsent⟩ := hall handed history hchronicle
  obtain ⟨g', hg', hqueue⟩ : ∃ g', (canceledCrowd.run 9).world.grants[0]? = some g' ∧
      g'.queue = [⟨2, 0⟩] := ⟨_, rfl, rfl⟩
  obtain rfl := Option.some.inj (hg.symm.trans hg')
  exact ⟨handed, history, g, hchronicle, hg, hqueue, hledger, hsent (wire_sendsOnce issuingPeer)⟩

end Acquire

end BearerAuth
