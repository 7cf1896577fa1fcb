import BearerAuth.Grant.Callers
import BearerAuth.Proofs.Transport.Wire

/-!
# What a caller does in a turn

A caller that acquires a token begins, or goes on from the phase that it paused in.  `Turn` lists
what it may do then: the token request that it hands to the transport, if it does, the reply to one
if that comes, and all that the turn leaves behind.  Every turn is in the list (`turnFrom_turn`), so
what all turns keep is proved case by case, and nothing else looks into the code of a turn.

A caller looks at the grant once in a turn.  What it saw before may be out of date: it has seen a
number of publications when it comes to the queue, or stops waiting, and there may have been more.
-/

namespace BearerAuth

open Transport

/-! ## Grants in a world -/

section

variable {w : World} {place : Nat} {g g' : Grant}

theorem grant_eq (h : w.grants[place]? = some g) : w.grant place = g := by
  simp [World.grant, h]

theorem getElem?_setGrant (h : w.grants[place]? = some g) :
    (w.setGrant place g').grants[place]? = some g' := by
  simp [World.setGrant, (List.getElem?_eq_some_iff.mp h).1]

theorem getElem?_setGrant_ne {k : Nat} (h : place ≠ k) :
    (w.setGrant place g').grants[k]? = w.grants[k]? := by
  simp [World.setGrant, h]

theorem setGrant_grant (w : World) (place : Nat) : w.setGrant place (w.grant place) = w := by
  have hset : w.grants.set place (w.grant place) = w.grants := by
    refine List.ext_getElem? fun k => ?_
    rw [List.getElem?_set]
    split
    · next heq =>
        subst heq
        split
        · next hlt => rw [World.grant, List.getElem?_eq_getElem hlt, Option.getD_some]
        · next hle => rw [List.getElem?_eq_none (Nat.le_of_not_lt hle)]
    · rfl
  rw [World.setGrant, hset]

end

namespace Grant

variable (g : Grant) (now : Instant) (outcome : Except Failure IssuedToken)

@[simp] theorem publish_credentials : (g.publish now outcome).credentials = g.credentials := by
  cases outcome <;> rfl

@[simp] theorem publish_busy : (g.publish now outcome).busy = false := by
  cases outcome <;> rfl

@[simp] theorem publish_begun : (g.publish now outcome).begun = g.begun := by
  cases outcome <;> rfl

@[simp] theorem publish_published : (g.publish now outcome).published = g.published + 1 := by
  cases outcome <;> rfl

@[simp] theorem publish_queue : (g.publish now outcome).queue = [] := by
  cases outcome <;> rfl

end Grant

namespace Acquire

/-- What becomes of a token request. -/
abbrev Outcome := Except Failure IssuedToken

theorem publish_eq {w : World} {place : Nat} {g : Grant} (h : w.grants[place]? = some g)
    (outcome : Outcome) :
    publish place outcome w =
      let entry := describe g.credentials outcome
      { (w.note entry.1 entry.2).setGrant place (g.publish w.now outcome) with
        released := w.released ++ g.released } := by
  simp only [publish, grant_eq h]
  rfl

theorem getElem?_publish {w : World} {place : Nat} {g : Grant} (h : w.grants[place]? = some g)
    (outcome : Outcome) :
    (publish place outcome w).grants[place]? = some (g.publish w.now outcome) := by
  rw [publish_eq h]
  exact getElem?_setGrant h

theorem publish_sent (place : Nat) (outcome : Outcome) (w : World) :
    (publish place outcome w).sent = w.sent := by
  simp only [publish]
  rfl

/-! ## Turns -/

/-- A caller begins to acquire a token, or goes on from a phase. -/
def turnFrom (base : Transport) (place : Nat) (caller : Caller) (before : Option (Phase base.Phase))
    (w : World) : Stretch (Phase base.Phase) Result :=
  match before with
  | none => start base place caller w
  | some phase => resume base place caller phase w

/-- A caller asks for a token: it begins, or the fetch that it waited for has been given up. -/
def Wants {φ : Type} : Option (Phase φ) → Prop
  | none => True
  | some (.returning ending) => ending = .abandoned
  | some _ => False

/-- A caller comes to fetch: it asks for a token, there is no fresh one, and nobody fetches. -/
structure Fetches {φ : Type} (g : Grant) (now : Instant) (before : Option (Phase φ)) : Prop where
  wants : Wants before
  stale : g.isFresh now = false
  idle : g.busy = false

/-- The result of a caller whose wait has ended like this; there is none when it has to ask for
a token again. -/
def Ending.result? : Ending → Option Result
  | .refreshed => some (.ok ())
  | .failed failure => some (.error failure)
  | .abandoned => none
  | .canceled => some (.error canceledWhileWaiting)
  | .timedOut => some (.error deadlineWhileWaiting)

/-- How a wait ends that no publication has ended. -/
def Ending.ofCaller (w : World) (caller : Caller) : Ending :=
  if w.canceled caller then .canceled else .timedOut

theorem Ending.ofGrant_eq_refreshed {g : Grant} (h : Ending.ofGrant g = .refreshed) :
    g.failure = none := by
  rw [Ending.ofGrant] at h
  split at h
  · cases h
  · cases hfailure : g.failure with
    | none => rfl
    | some failure =>
        rw [hfailure] at h
        cases h

theorem Ending.ofCaller_ne_refreshed (w : World) (caller : Caller) :
    Ending.ofCaller w caller ≠ .refreshed := by
  rw [Ending.ofCaller]
  split
  · exact nofun
  · exact nofun

theorem Ending.eq_refreshed_of_result {ending : Ending} (h : ending.result? = some (.ok ())) :
    ending = .refreshed := by
  cases ending with
  | refreshed => rfl
  | failed failure => cases h
  | abandoned => cases h
  | canceled => cases h
  | timedOut => cases h

/-- The token request of a grant, handed over at an instant. -/
def tokenExchange (g : Grant) (now : Instant) : Exchange :=
  ⟨now, g.credentials.tokenUrl, g.credentials.request⟩

/-- What a caller may do in a turn that it takes from a phase, or from none when it begins: the
token request that it hands over, the reply that it has to one, and the stretch of work. -/
inductive Turn (base : Transport) (place : Nat) (caller : Caller) (w : World) (g : Grant) :
    Option (Phase base.Phase) → Option Exchange → Option Reply →
      Stretch (Phase base.Phase) Result → Prop
  /-- It is served from the cache. -/
  | serves {before : Option (Phase base.Phase)} : Wants before → g.isFresh w.now = true →
      Turn base place caller w g before none none (.done (.ok ()), w)
  /-- It finds another's fetch under way. -/
  | sees {before : Option (Phase base.Phase)} : Wants before → g.busy = true →
      Turn base place caller w g before none none (.yield (.joining g.published) w)
  /-- It makes a token request. -/
  | asks {before : Option (Phase base.Phase)} {phase : base.Phase} {wait : Wait} {w' : World} :
      Fetches g w.now before →
      base.start caller g.credentials.tokenUrl g.credentials.request
        (w.setGrant place g.beginFetch) = (.paused phase wait, w') →
      Turn base place caller w g before (some (tokenExchange g w.now)) none
        (.paused (.fetching phase) wait, w')
  /-- It makes a token request and has the reply at once. -/
  | exchanges {before : Option (Phase base.Phase)} {reply : Reply} {w' : World} :
      Fetches g w.now before →
      base.start caller g.credentials.tokenUrl g.credentials.request
        (w.setGrant place g.beginFetch) = (.done reply, w') →
      Turn base place caller w g before (some (tokenExchange g w.now)) (some reply)
        (finish place reply w')
  /-- It goes on waiting for the reply. -/
  | continues {phase phase' : base.Phase} {wait : Wait} {w' : World} :
      base.resume caller phase w = (.paused phase' wait, w') →
      Turn base place caller w g (some (.fetching phase)) none none
        (.paused (.fetching phase') wait, w')
  /-- It gets the reply. -/
  | receives {phase : base.Phase} {reply : Reply} {w' : World} :
      base.resume caller phase w = (.done reply, w') →
      Turn base place caller w g (some (.fetching phase)) none (some reply)
        (finish place reply w')
  /-- It joins the queue, as there has been no publication since it looked. -/
  | joins : Turn base place caller w g (some (.joining g.published)) none none
      (.paused (.awaiting g.published) { timer := caller.deadline, cancel := caller.cancelAt },
        w.setGrant place (g.join caller.ticket g.published))
  /-- It comes too late for the queue. -/
  | late {seen : Nat} : g.published ≠ seen →
      Turn base place caller w g (some (.joining seen)) none none (.yield (.awaiting seen) w)
  /-- A publication has ended its wait. -/
  | hears {seen : Nat} : g.published ≠ seen →
      Turn base place caller w g (some (.awaiting seen)) none none
        (.yield (.returning (.ofGrant g)) w)
  /-- It leaves the queue. -/
  | leaves : Turn base place caller w g (some (.awaiting g.published)) none none
      (.yield (.returning (.ofCaller w caller)) (w.setGrant place (g.leave caller.ticket)))
  /-- It ends as its wait did. -/
  | ends {ending : Ending} {result : Result} : ending.result? = some result →
      Turn base place caller w g (some (.returning ending)) none none (.done result, w)

section

variable {base : Transport} {place : Nat} {caller : Caller} {w w' : World} {g g' : Grant}
  {before : Option (Phase base.Phase)} {exchange? : Option Exchange} {reply? : Option Reply}
  {stretch : Stretch (Phase base.Phase) Result}

theorem start_turn (caller : Caller) (hg : w.grants[place]? = some g) (hwants : Wants before) :
    ∃ exchange? reply?,
      Turn base place caller w g before exchange? reply? (start base place caller w) := by
  simp only [start, grant_eq hg]
  by_cases hfresh : g.isFresh w.now = true
  · rw [if_pos hfresh]
    exact ⟨none, none, .serves hwants hfresh⟩
  · rw [if_neg hfresh]
    by_cases hbusy : g.busy = true
    · rw [if_pos hbusy]
      exact ⟨none, none, .sees hwants hbusy⟩
    · rw [if_neg hbusy]
      have hfetches : Fetches g w.now before :=
        ⟨hwants, Bool.eq_false_iff.mpr hfresh, Bool.eq_false_iff.mpr hbusy⟩
      simp only [fetch, grant_eq hg]
      rcases hstart : base.start caller g.credentials.tokenUrl g.credentials.request
        (w.setGrant place g.beginFetch) with ⟨reply | ⟨phase, wait⟩, w₁⟩
      · exact ⟨_, some reply, .exchanges hfetches hstart⟩
      · exact ⟨_, none, .asks hfetches hstart⟩

/-- **Every turn of a caller is one of these.** -/
theorem turnFrom_turn (caller : Caller) (hg : w.grants[place]? = some g)
    (before : Option (Phase base.Phase)) :
    ∃ exchange? reply?, Turn base place caller w g before exchange? reply?
      (turnFrom base place caller before w) := by
  cases before with
  | none => exact start_turn caller hg trivial
  | some phase =>
      cases phase with
      | fetching phase =>
          simp only [turnFrom, resume]
          rcases hresume : base.resume caller phase w with ⟨reply | ⟨phase', wait⟩, w₁⟩
          · exact ⟨none, some reply, .receives hresume⟩
          · exact ⟨none, none, .continues hresume⟩
      | joining seen =>
          simp only [turnFrom, resume, await, grant_eq hg]
          by_cases hseen : g.published = seen
          · subst hseen
            rw [if_pos rfl]
            exact ⟨none, none, .joins⟩
          · rw [if_neg hseen]
            exact ⟨none, none, .late hseen⟩
      | awaiting seen =>
          simp only [turnFrom, resume, conclude, grant_eq hg]
          by_cases hseen : g.published = seen
          · subst hseen
            rw [if_neg (not_not_intro rfl)]
            exact ⟨none, none, .leaves⟩
          · rw [if_pos hseen]
            exact ⟨none, none, .hears hseen⟩
      | returning ending =>
          cases ending with
          | refreshed => exact ⟨none, none, .ends rfl⟩
          | failed failure => exact ⟨none, none, .ends rfl⟩
          | abandoned => exact start_turn caller hg rfl
          | canceled => exact ⟨none, none, .ends rfl⟩
          | timedOut => exact ⟨none, none, .ends rfl⟩

/-- A caller hands over a token request exactly when it comes to fetch. -/
theorem Turn.fetches_iff (h : Turn base place caller w g before exchange? reply? stretch)
    (exchange : Exchange) :
    Fetches g w.now before ∧ exchange = tokenExchange g w.now ↔ exchange? = some exchange := by
  have hnone (hnot : ¬ Fetches g w.now before) :
      Fetches g w.now before ∧ exchange = tokenExchange g w.now ↔ none = some exchange :=
    ⟨fun hfetches => absurd hfetches.1 hnot, nofun⟩
  have hsome (hfetches : Fetches g w.now before) : Fetches g w.now before ∧
      exchange = tokenExchange g w.now ↔ some (tokenExchange g w.now) = some exchange :=
    ⟨fun heq => congrArg some heq.2.symm, fun heq => ⟨hfetches, (Option.some.inj heq).symm⟩⟩
  cases h with
  | serves _ hfresh =>
      refine hnone fun hfetches => ?_
      rw [hfetches.stale] at hfresh
      cases hfresh
  | sees _ hbusy =>
      refine hnone fun hfetches => ?_
      rw [hfetches.idle] at hbusy
      cases hbusy
  | asks hfetches => exact hsome hfetches
  | exchanges hfetches => exact hsome hfetches
  | continues => exact hnone fun hfetches => hfetches.wants
  | receives => exact hnone fun hfetches => hfetches.wants
  | joins => exact hnone fun hfetches => hfetches.wants
  | late => exact hnone fun hfetches => hfetches.wants
  | hears => exact hnone fun hfetches => hfetches.wants
  | leaves => exact hnone fun hfetches => hfetches.wants
  | ends hresult =>
      refine hnone fun hfetches => ?_
      obtain rfl : _ = Ending.abandoned := hfetches.wants
      cases hresult

/-! ## Exchanges of a turn -/

theorem start_leaves (hbase : base.KeepsApart) (hg : w.grants[place]? = some g) {url : Url}
    {request : Request} {progress : Progress base.Phase Reply}
    (hstart : base.start caller url request (w.setGrant place g') = (progress, w')) :
    w'.grants[place]? = some g' ∧ World.Outward (w.setGrant place g') w' := by
  have houtward := hbase.start caller url request (w.setGrant place g')
  rw [hstart] at houtward
  exact ⟨houtward.grants ▸ getElem?_setGrant hg, houtward⟩

theorem resume_leaves (hbase : base.KeepsApart) (hg : w.grants[place]? = some g)
    {phase : base.Phase} {progress : Progress base.Phase Reply}
    (hresume : base.resume caller phase w = (progress, w')) :
    w'.grants[place]? = some g ∧ World.Outward w w' := by
  have houtward := hbase.resume caller phase w
  rw [hresume] at houtward
  exact ⟨houtward.grants ▸ hg, houtward⟩

/-- In a turn that begins in a world the token request of a caller comes to its reply: one that
was under way, or one that is made in the turn. -/
inductive Replied (base : Transport) (place : Nat) (caller : Caller) (w : World) :
    Option (Phase base.Phase) → Reply → Prop
  | late {phase : base.Phase} {reply : Reply} {w₁ : World} :
      base.resume caller phase w = (.done reply, w₁) →
      Replied base place caller w (some (.fetching phase)) reply
  | atOnce {before : Option (Phase base.Phase)} {reply : Reply} {w₁ : World} :
      Fetches (w.grant place) w.now before →
      base.start caller (w.grant place).credentials.tokenUrl (w.grant place).credentials.request
        (w.setGrant place (w.grant place).beginFetch) = (.done reply, w₁) →
      Replied base place caller w before reply

/-- A caller has a reply in a turn exactly when the turn says so. -/
theorem Turn.replied_iff (hg : w.grants[place]? = some g)
    (h : Turn base place caller w g before exchange? reply? stretch) (reply : Reply) :
    Replied base place caller w before reply ↔ reply? = some reply := by
  have hfetches_iff := h.fetches_iff
  have hatOnce (hnone : exchange? = none) (hphase : ∀ phase, before ≠ some (.fetching phase)) :
      Replied base place caller w before reply ↔ none = some reply := by
    refine ⟨fun hreplied => ?_, nofun⟩
    cases hreplied with
    | late => exact absurd rfl (hphase _)
    | atOnce hfetches _ =>
        have hsome := (hfetches_iff _).mp ⟨grant_eq hg ▸ hfetches, rfl⟩
        rw [hnone] at hsome
        cases hsome
  have hwanting (hwants : Wants before) (phase : base.Phase) : before ≠ some (.fetching phase) := by
    rintro rfl
    exact hwants
  cases h with
  | serves hwants => exact hatOnce rfl (hwanting hwants)
  | sees hwants => exact hatOnce rfl (hwanting hwants)
  | asks hfetches hstart =>
      refine ⟨fun hreplied => ?_, nofun⟩
      cases hreplied with
      | late => exact absurd rfl (hwanting hfetches.wants _)
      | atOnce _ hdone =>
          rw [grant_eq hg, hstart] at hdone
          cases hdone
  | exchanges hfetches hstart =>
      constructor
      · intro hreplied
        cases hreplied with
        | late => exact absurd rfl (hwanting hfetches.wants _)
        | atOnce _ hdone =>
            rw [grant_eq hg, hstart] at hdone
            rw [Progress.done.inj (Prod.mk.inj hdone).1]
      · rintro ⟨⟩
        exact .atOnce (grant_eq hg ▸ hfetches) (by rw [grant_eq hg]; exact hstart)
  | continues hresume =>
      refine ⟨fun hreplied => ?_, nofun⟩
      cases hreplied with
      | late hdone =>
          rw [hresume] at hdone
          cases hdone
      | atOnce hfetches _ => exact hfetches.wants.elim
  | receives hresume =>
      constructor
      · intro hreplied
        cases hreplied with
        | late hdone =>
            rw [hresume] at hdone
            rw [Progress.done.inj (Prod.mk.inj hdone).1]
        | atOnce hfetches _ => exact hfetches.wants.elim
      · rintro ⟨⟩
        exact .late hresume
  | joins => exact hatOnce rfl nofun
  | late => exact hatOnce rfl nofun
  | hears => exact hatOnce rfl nofun
  | leaves => exact hatOnce rfl nofun
  | ends => exact hatOnce rfl nofun

end

end Acquire

end BearerAuth
