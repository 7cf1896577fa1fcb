import BearerAuth.Proofs.Grant.Turn
import BearerAuth.Proofs.Transport.Promise

/-!
# Why a caller fails

A caller that ends without a token has one of four reasons (`Fault`): its own token
request failed, it was canceled while it waited, its time ran out while it waited, or
another caller's request failed and was no abandonment.  Which of the last three it is was
settled when its wait ended, and stays so while others have their turns (`Stands`).  That
rests on what a grant remembers of its last failure (`Grant.Linked`) and on what a waiting
caller is called to its turn for (`Due`).

The transport of the token requests is any one that keeps to itself and says that a
request was canceled only when its caller was (`Transport.Candid`).
-/

namespace BearerAuth

open Transport

/-- Exchanges leave clock, callers and grants alone, and only those of canceled callers
end as canceled, as long as their phases are as promised. -/
def Transport.CandidIn (base : Transport) (mine : Caller → base.Phase → Prop) : Prop :=
  ∀ caller url request, base.Honours caller url request (fun _ => True) World.Outward
    (fun phase _ => mine caller phase)
    (fun reply w => ∀ failure, reply = .error failure → failure.reason = .canceled →
      w.canceled caller = true)

/-- A transport that keeps to itself, and reports a cancellation only to a caller that
was canceled. -/
def Transport.Candid (base : Transport) : Prop := ∃ mine, base.CandidIn mine

theorem wire_candid {peer : Peer}
    (hfails : ∀ sent exchange failure, peer sent exchange = .error failure →
      failure.reason ≠ .canceled)
    (hreplies : ∀ sent exchange delivery failure, peer sent exchange = .ok delivery →
      delivery.reply = .error failure → failure.reason ≠ .canceled) : (wire peer).Candid := by
  refine ⟨fun _ reply => ∀ failure, reply = .error failure → failure.reason ≠ .canceled, ?_⟩
  intro caller url request
  constructor
  · intro w _
    simp only [wire]
    cases hpeer : peer w.sent ⟨w.now, url, request⟩ with
    | error failure =>
        refine ⟨⟨rfl, rfl, rfl, rfl⟩, fun failure' heq hreason => ?_⟩
        obtain rfl := Except.error.inj heq
        exact absurd hreason (hfails _ _ failure hpeer)
    | ok delivery =>
        have hreply := hreplies w.sent ⟨w.now, url, request⟩ delivery
        simp only [Wire.deliver]
        split
        · next hcanceled => exact ⟨⟨rfl, rfl, rfl, rfl⟩, fun _ _ _ => hcanceled⟩
        · split
          · refine ⟨⟨rfl, rfl, rfl, rfl⟩, fun failure heq hreason => ?_⟩
            obtain rfl := Except.error.inj heq
            cases hreason
          · split
            · exact ⟨⟨rfl, rfl, rfl, rfl⟩, fun failure heq hreason =>
                absurd hreason (hreply failure hpeer heq)⟩
            · refine ⟨⟨rfl, rfl, rfl, rfl⟩, fun failure heq => ?_⟩
              simp only [Wire.ending] at heq
              split at heq
              · exact hreply failure hpeer heq
              · split at heq
                · obtain rfl := Except.error.inj heq
                  rintro ⟨⟩
                · exact hreply failure hpeer heq
  · intro reply w _ hmine
    refine ⟨⟨rfl, rfl, rfl, rfl⟩, fun failure heq hreason => ?_⟩
    cases hcanceled : w.canceled caller with
    | true => exact hcanceled
    | false =>
        simp only [hcanceled] at heq
        exact absurd hreason (hmine failure heq)

/-- A grant knows of its last failure whether it was an abandonment. -/
def Grant.Linked (g : Grant) : Prop := g.givenUp = g.failure.any Failure.isAbandonment

theorem not_abandonment {failure : Failure} (h : failure.isAbandonment = false) :
    failure.reason = .connection ∨ failure.reason = .protocol ∨ failure.reason = .credentials := by
  obtain ⟨reason, message⟩ := failure
  cases reason with
  | connection => exact .inl rfl
  | timeout => cases h
  | canceled => cases h
  | protocol => exact .inr (.inl rfl)
  | credentials => exact .inr (.inr rfl)

theorem ofReply_eq_error {reply : Reply} {failure : Failure}
    (h : IssuedToken.ofReply reply = .error failure) :
    reply = .error failure ∨ failure.reason = .credentials := by
  simp only [IssuedToken.ofReply] at h
  split at h
  · obtain rfl := Except.error.inj h
    exact .inl rfl
  · split at h
    · cases h
    · obtain rfl := Except.error.inj h
      exact .inr rfl

namespace Acquire

/-! ## Reasons -/

/-- Why a caller ends with a failure in a turn that it takes from a phase, or from none when it
begins. -/
inductive Fault (base : Transport) (place : Nat) (caller : Caller) (w w' : World)
    (before : Option (Phase base.Phase)) : Failure → Prop
  | own {reply : Reply} {failure : Failure} : Replied base place caller w before reply →
      IssuedToken.ofReply reply = .error failure →
      (failure.reason = .canceled → w'.canceled caller = true) →
      Fault base place caller w w' before failure
  | canceled : before = some (.returning .canceled) → w'.canceled caller = true →
      Fault base place caller w w' before canceledWhileWaiting
  | expired : before = some (.returning .timedOut) → caller.expired w'.now = true →
      Fault base place caller w w' before deadlineWhileWaiting
  | shared {failure : Failure} : before = some (.returning (.failed failure)) →
      failure.isAbandonment = false → Fault base place caller w w' before failure

section

variable {base : Transport} {place : Nat} {caller : Caller} {w w' : World}
  {before : Option (Phase base.Phase)} {failure : Failure}

theorem Fault.of_canceled (h : Fault base place caller w w' before failure)
    (hreason : failure.reason = .canceled) : w'.canceled caller = true := by
  cases h with
  | own _ _ hcanceled => exact hcanceled hreason
  | canceled _ hcanceled => exact hcanceled
  | expired => cases hreason
  | shared _ hkept => simp [Failure.isAbandonment, hreason] at hkept

theorem Fault.of_timeout (h : Fault base place caller w w' before failure)
    (hreason : failure.reason = .timeout) :
    caller.expired w'.now = true ∨ Replied base place caller w before (.error failure) := by
  cases h with
  | own hreplied houtcome _ =>
      rcases ofReply_eq_error houtcome with rfl | hcredentials
      · exact .inr hreplied
      · rw [hreason] at hcredentials
        cases hcredentials
  | canceled => cases hreason
  | expired _ hexpired => exact .inl hexpired
  | shared _ hkept => simp [Failure.isAbandonment, hreason] at hkept

/-- A caller without a reply of its own, neither canceled nor out of time, shares a failure that
was published. -/
theorem Fault.of_unreplied (h : Fault base place caller w w' before failure)
    (hreplied : ∀ reply, ¬ Replied base place caller w before reply) :
    failure = canceledWhileWaiting ∧ w'.canceled caller = true ∨
      failure = deadlineWhileWaiting ∧ caller.expired w'.now = true ∨
      before = some (.returning (.failed failure)) ∧ (failure.reason = .connection ∨
        failure.reason = .protocol ∨ failure.reason = .credentials) := by
  cases h with
  | own hown _ _ => exact absurd hown (hreplied _)
  | canceled _ hcanceled => exact .inl ⟨rfl, hcanceled⟩
  | expired _ hexpired => exact .inr (.inl ⟨rfl, hexpired⟩)
  | shared hbefore hkept => exact .inr (.inr ⟨hbefore, not_abandonment hkept⟩)

end

/-! ## What a stretch does -/

/-- What a caller does to what others rely on: the clock stands still, the grant stays
linked, and callers are released only by a publication. -/
structure Serves (place : Nat) (w w' : World) : Prop where
  now : w'.now = w.now
  agenda : w'.agenda = w.agenda
  grant : ∀ {g : Grant}, w.grants[place]? = some g → g.Linked →
    ∃ g', w'.grants[place]? = some g' ∧ g'.Linked ∧ g.published ≤ g'.published ∧
      (w'.released = w.released ∨ g.published < g'.published)

/-- There has been a publication since `seen` of them. -/
def Overtaken (place seen : Nat) (w : World) : Prop :=
  ∃ g, w.grants[place]? = some g ∧ seen < g.published

/-- What a waiting caller is called to its turn for. -/
def Due (place : Nat) (caller : Caller) (seen : Nat) (w : World) : Prop :=
  Overtaken place seen w ∨ w.canceled caller = true ∨ caller.expired w.now = true

/-- The phase of a caller: its exchange is as the transport promised; or it has seen no more
publications than there were; or its wait has ended as it should have. -/
def Stands {base : Transport} (mine : Caller → base.Phase → Prop) (place : Nat)
    (caller : Caller) : Phase base.Phase → World → Prop
  | .fetching phase, _ => mine caller phase
  | .joining seen, w | .awaiting seen, w => ∃ g, w.grants[place]? = some g ∧ seen ≤ g.published
  | .returning .canceled, w => w.canceled caller = true
  | .returning .timedOut, w => caller.expired w.now = true
  | .returning (.failed failure), _ => failure.isAbandonment = false
  | .returning .refreshed, _ | .returning .abandoned, _ => True

section

variable {base : Transport} {mine : Caller → base.Phase → Prop} {place : Nat} {caller : Caller}
  {g g' : Grant} {w w' w'' : World}

theorem Serves.trans (h : Serves place w w') (h' : Serves place w' w'') : Serves place w w'' where
  now := h'.now.trans h.now
  agenda := h'.agenda.trans h.agenda
  grant := by
    intro g hg hlinked
    obtain ⟨g', hg', hlinked', hle, hreleased⟩ := h.grant hg hlinked
    obtain ⟨g'', hg'', hlinked'', hle', hreleased'⟩ := h'.grant hg' hlinked'
    refine ⟨g'', hg'', hlinked'', Nat.le_trans hle hle', ?_⟩
    rcases hreleased with hreleased | hlt
    · rcases hreleased' with hreleased' | hlt'
      · exact .inl (hreleased'.trans hreleased)
      · exact .inr (Nat.lt_of_le_of_lt hle hlt')
    · exact .inr (Nat.lt_of_lt_of_le hlt hle')

theorem Serves.of_outward (h : World.Outward w w') : Serves place w w' :=
  ⟨h.now, h.agenda, fun hg hlinked => ⟨_, h.grants ▸ hg, hlinked, Nat.le_refl _, .inl h.released⟩⟩

theorem Serves.refl (w : World) : Serves place w w := .of_outward ⟨rfl, rfl, rfl, rfl⟩

theorem Serves.touch (hg : w.grants[place]? = some g) (hpub : g'.published = g.published)
    (hfailure : g'.failure = g.failure) (hgivenUp : g'.givenUp = g.givenUp) :
    Serves place w (w.setGrant place g') := by
  refine ⟨rfl, rfl, ?_⟩
  intro g'' hg'' hlinked
  obtain rfl := Option.some.inj (hg.symm.trans hg'')
  refine ⟨g', getElem?_setGrant hg, ?_, Nat.le_of_eq hpub.symm, .inl rfl⟩
  rw [Grant.Linked, hgivenUp, hfailure]
  exact hlinked

theorem Serves.publish (hg : w.grants[place]? = some g)
    (outcome : Except Failure IssuedToken) : Serves place w (publish place outcome w) := by
  rw [publish_eq hg]
  refine ⟨rfl, rfl, ?_⟩
  intro g'' hg'' _
  obtain rfl := Option.some.inj (hg.symm.trans hg'')
  refine ⟨g.publish w.now outcome, getElem?_setGrant hg, ?_, ?_, ?_⟩
  · cases outcome <;> rfl
  · rw [Grant.publish_published]
    exact Nat.le_succ _
  · rw [Grant.publish_published]
    exact .inr (Nat.lt_succ_self _)

theorem canceled_publish (outcome : Except Failure IssuedToken) (hg : w.grants[place]? = some g) :
    (publish place outcome w).canceled caller = w.canceled caller := by
  rw [publish_eq hg]
  rfl

/-! ## Waits -/

theorem turnFrom_awaits {before : Option (Phase base.Phase)} (hg : w.grants[place]? = some g)
    (hseen : ∀ seen, before = some (.joining seen) → seen ≤ g.published) {seen : Nat} {wait : Wait}
    (hpaused : (turnFrom base place caller before w).1 = .paused (.awaiting seen) wait) :
    Overtaken place seen (turnFrom base place caller before w).2 ∨
      wait = { timer := caller.deadline, cancel := caller.cancelAt } ∧
        (turnFrom base place caller before w).2.released = w.released := by
  obtain ⟨exchange?, reply?, hturn⟩ := turnFrom_turn caller hg before
  generalize turnFrom base place caller before w = stretch at hturn hpaused
  cases hturn with
  | serves => cases hpaused
  | sees => cases hpaused
  | asks => cases hpaused
  | exchanges => cases hpaused
  | continues => cases hpaused
  | receives => cases hpaused
  | joins =>
      cases hpaused
      exact .inr ⟨rfl, rfl⟩
  | late hne =>
      cases hpaused
      exact .inl ⟨g, hg, Nat.lt_of_le_of_ne (hseen _ rfl) (Ne.symm hne)⟩
  | hears => cases hpaused
  | leaves => cases hpaused
  | ends => cases hpaused

/-! ## Reasons of stretches -/

variable {before : Option (Phase base.Phase)}

/-- The reply to the own token request is published, and is the reason of a failure. -/
theorem finish_faults (hg : w'.grants[place]? = some g) {reply : Reply}
    (hreplied : Replied base place caller w before reply)
    (hcanceled : ∀ failure, reply = .error failure → failure.reason = .canceled →
      w'.canceled caller = true) :
    (finish place reply w' : Stretch (Phase base.Phase) Result).Keeps (Serves place)
      (Stands mine place caller) (fun result w'' => ∀ failure, result = .error failure →
        Fault base place caller w w'' before failure) w' := by
  refine ⟨.publish hg _, fun failure hfailure => ?_⟩
  cases houtcome : IssuedToken.ofReply reply with
  | ok issued =>
      rw [houtcome] at hfailure
      cases hfailure
  | error failure' =>
      rw [houtcome] at hfailure
      obtain rfl := Except.error.inj hfailure
      refine .own hreplied houtcome fun hreason => ?_
      rcases ofReply_eq_error houtcome with hreply | hcredentials
      · exact (canceled_publish _ hg).trans (hcanceled failure' hreply hreason)
      · rw [hcredentials] at hreason
        cases hreason

/-- How a publication ends a wait: with a failure only if that is no abandonment. -/
theorem Stands.hears (hlinked : g.Linked) :
    Stands mine place caller (.returning (.ofGrant g)) w := by
  rw [Ending.ofGrant]
  split
  · exact trivial
  · next hkept =>
      cases hfailure : g.failure with
      | none => exact trivial
      | some failure =>
          rw [Grant.Linked, hfailure] at hlinked
          simpa [hlinked, Stands] using hkept

/-- A caller that leaves the queue is canceled or out of time, as nothing was published. -/
theorem Stands.leaves (hg : w.grants[place]? = some g) (hdue : Due place caller g.published w) :
    Stands mine place caller (.returning (.ofCaller w caller))
      (w.setGrant place (g.leave caller.ticket)) := by
  rw [Ending.ofCaller]
  split
  · next hcanceled => exact hcanceled
  · next hcanceled =>
      rcases hdue with ⟨g', hg', hlt⟩ | hdue | hdue
      · obtain rfl := Option.some.inj (hg.symm.trans hg')
        exact absurd hlt (Nat.lt_irrefl _)
      · exact absurd hdue hcanceled
      · exact hdue

theorem Fault.ends {ending : Ending} {result : Result} (hresult : ending.result? = some result)
    (hstands : Stands mine place caller (.returning ending : Phase base.Phase) w)
    (failure : Failure) (hfailure : result = .error failure) :
    Fault base place caller w w (some (.returning ending)) failure := by
  subst hfailure
  cases ending with
  | refreshed => cases hresult
  | failed failure' =>
      cases hresult
      exact .shared rfl hstands
  | abandoned => cases hresult
  | canceled =>
      cases hresult
      exact .canceled rfl hstands
  | timedOut =>
      cases hresult
      exact .expired rfl hstands

/-- What a turn does to others, where it leaves its caller, and why that fails if it does. -/
theorem turnFrom_faults (hcandid : base.CandidIn mine) (hg : w.grants[place]? = some g)
    (hlinked : g.Linked)
    (hstands : ∀ phase, before = some phase → Stands mine place caller phase w)
    (hdue : ∀ seen, before = some (.awaiting seen) → Due place caller seen w) :
    (turnFrom base place caller before w).Keeps (Serves place) (Stands mine place caller)
      (fun result w' => ∀ failure, result = .error failure →
        Fault base place caller w w' before failure) w := by
  have hrefl : Serves place w w := .refl w
  have hbegun : Serves place w (w.setGrant place g.beginFetch) := .touch hg rfl rfl rfl
  have hstarts := (hcandid caller g.credentials.tokenUrl g.credentials.request).start
    (w := w.setGrant place g.beginFetch) trivial
  obtain ⟨exchange?, reply?, hturn⟩ := turnFrom_turn caller hg before
  have hreplied := hturn.replied_iff hg
  generalize turnFrom base place caller before w = stretch at hturn
  cases hturn with
  | serves => exact ⟨hrefl, nofun⟩
  | sees => exact ⟨hrefl, g, hg, Nat.le_refl _⟩
  | asks hfetches hstart =>
      rw [hstart] at hstarts
      exact ⟨hbegun.trans (.of_outward hstarts.1), hstarts.2⟩
  | exchanges hfetches hstart =>
      rw [hstart] at hstarts
      obtain ⟨hserves, hfault⟩ := @finish_faults _ mine _ _ _ _ _ _
        (hstarts.1.grants ▸ getElem?_setGrant hg) _ ((hreplied _).mpr rfl) hstarts.2
      exact ⟨(hbegun.trans (.of_outward hstarts.1)).trans hserves, hfault⟩
  | continues hresume =>
      have hkeeps := (hcandid caller {} {}).resume (w := w) trivial (hstands _ rfl)
      rw [hresume] at hkeeps
      exact ⟨.of_outward hkeeps.1, hkeeps.2⟩
  | receives hresume =>
      have hkeeps := (hcandid caller {} {}).resume (w := w) trivial (hstands _ rfl)
      rw [hresume] at hkeeps
      obtain ⟨hserves, hfault⟩ := @finish_faults _ mine _ _ _ _ _ _ (hkeeps.1.grants ▸ hg)
        _ ((hreplied _).mpr rfl) hkeeps.2
      exact ⟨(Serves.of_outward hkeeps.1).trans hserves, hfault⟩
  | joins => exact ⟨.touch hg rfl rfl rfl, _, getElem?_setGrant hg, Nat.le_refl _⟩
  | @late seen hne => exact ⟨hrefl, hstands (.joining seen) rfl⟩
  | hears hne => exact ⟨hrefl, .hears hlinked⟩
  | leaves => exact ⟨.touch hg rfl rfl rfl, .leaves hg (hdue _ rfl)⟩
  | ends hends => exact ⟨hrefl, Fault.ends hends (hstands _ rfl)⟩

end

end Acquire

end BearerAuth
