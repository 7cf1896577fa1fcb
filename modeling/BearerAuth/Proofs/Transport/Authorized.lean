import BearerAuth.Proofs.Transport.Errand

/-!
# The token on a request

Callers with errands take turns in any order, and what they do one after the other is a list of acts
(`History`).  A request goes out with the token of the latest reply that had one when its headers
were read, and is otherwise as it was; a caller that could not acquire a token sends nothing; and
only a reply with a token changes the token of the grant and its expiry
(`requests_bear_latest_token`).

Reading the headers and handing over the request are turns of their own.  Nothing suspends a caller
in between, and as long as nobody has a turn there (`undivided`) the token is also the latest when
the request is handed over.  On a timeline nobody ever has (`run_undivided`).
-/

namespace BearerAuth

open Timeline

namespace Transport

namespace Authorized

/-! ## Histories -/

/-- Who may have the next turn. -/
abbrev Order (base : Transport) := Timeline (Phase base.Phase) Reply → Ticket → Prop

/-- A caller has read the headers for its request and not handed it over. -/
def HasRead {base : Transport} (t : Timeline (Phase base.Phase) Reply) (k : Ticket)
    (request : Request) : Prop :=
  ∃ url wait since, t.slots[k]? = some (.waiting (.bearing url request) wait since)

/-- Nobody else may while a caller is about to hand over its request. -/
def undivided {base : Transport} : Order base := fun t i => ∀ k request, HasRead t k request → k = i

/-- Steps from a start on, with turns of those who may have them, and what is done in them. -/
inductive History (base : Transport) (place : Nat) (errands : List Errand) (may : Order base)
    (start : Timeline (Phase base.Phase) Reply) :
    List Act → Timeline (Phase base.Phase) Reply → Prop
  | refl : History base place errands may start [] start
  | pass {acts : List Act} {t t' : Timeline (Phase base.Phase) Reply} :
      History base place errands may start acts t → Next none t t' →
      History base place errands may start acts t'
  | nobody {acts : List Act} {i : Ticket} {t t' : Timeline (Phase base.Phase) Reply} :
      History base place errands may start acts t → Next (some i) t t' → may t i →
      errands[i]? = none ∨ t.slots[i]? = none → History base place errands may start acts t'
  | turn {acts more : List Act} {i : Ticket} {errand : Errand}
      {slot : Slot (Phase base.Phase) Reply} {t t' : Timeline (Phase base.Phase) Reply} :
      History base place errands may start acts t → Next (some i) t t' → may t i →
      errands[i]? = some errand → t.slots[i]? = some slot →
      Performs base place i errand t.world slot more →
      History base place errands may start (acts ++ more) t'

/-- A request is sent with a token: it has one authorization, which bears the token, and is
otherwise as it was. -/
structure Bears (token : Bytes) (request sent : Request) : Prop where
  method : sent.method = request.method
  target : sent.target = request.target
  body : sent.body = request.body
  authorization : sent.headers.values (utf8 "Authorization") =
    [Bytes.trim (utf8 "Bearer " ++ token)]
  others : sent.headers.others (utf8 "Authorization") =
    request.headers.others (utf8 "Authorization")

theorem bearing_bears (token : Bytes) (request : Request) :
    Bears token request (bearing token request) :=
  ⟨rfl, rfl, rfl, Headers.values_set _ _ _, Headers.others_set _ _ _⟩

/-- A caller's own request is due: it has acquired a token, has then read the headers, when the
token was the latest, and has done nothing since. -/
def Due (errands : List Errand) (earlier : List Act) (i : Ticket) (exchange : Exchange) : Prop :=
  ∃ errand issued before between, errands[i]? = some errand ∧
    earlier = before ++ .bears i exchange.request :: between ∧ steps i between = [] ∧
    .acquires i (.ok ()) ∈ before ∧ latest? before = some issued ∧ exchange.url = errand.url ∧
    Bears issued.token errand.request exchange.request

section

variable {base : Transport} {place : Nat} {errands : List Errand} {errand : Errand} {w w' : World}
  {g g' : Grant} {i k : Ticket} {acts more earlier later : List Act} {may : Order base}
  {credentials : Credentials} {first : List Exchange} {reply? : Option Reply}
  {t t' start : Timeline (Phase base.Phase) Reply} {slot slot' : Slot (Phase base.Phase) Reply}

theorem append_eq_append_cons {α : Type} {l r before behind : List α} {a : α}
    (h : l ++ r = before ++ a :: behind) :
    (∃ more, l = before ++ a :: more) ∨
      ∃ between, before = l ++ between ∧ r = between ++ a :: behind := by
  rcases List.append_eq_append_iff.mp h with ⟨between, hl, hr⟩ | ⟨between, hl, hr⟩
  · exact .inr ⟨between, hl, hr⟩
  · cases between with
    | nil => exact .inr ⟨[], by rw [hl, List.append_nil, List.append_nil], hr.symm⟩
    | cons b between =>
        obtain ⟨rfl, -⟩ := List.cons.inj hr
        exact .inl ⟨between, hl⟩

/-! ## What holds after any number of turns -/

/-- What the grant shows of the acts. -/
structure Holds (credentials : Credentials) (acts : List Act) (g : Grant) : Prop where
  credentials : g.credentials = credentials
  /-- The token is that of the latest reply that had one. -/
  token : g.token = ((latest? acts).map IssuedToken.token).getD []
  stocked : Stocked g

/-- What holds of acts on credentials. -/
structure Recorded (errands : List Errand) (credentials : Credentials) (acts : List Act) :
    Prop where
  /-- What is handed over to acquire a token is the token request. -/
  asks : ∀ {i exchange}, .asks i exchange ∈ acts →
    exchange.url = credentials.tokenUrl ∧ exchange.request = credentials.request
  /-- The headers that are read have the latest token. -/
  bears : ∀ {earlier i request later}, acts = earlier ++ .bears i request :: later →
    ∃ errand issued, errands[i]? = some errand ∧ latest? earlier = some issued ∧
      request = bearing issued.token errand.request

/-- The acts of callers are in accord with the timeline. -/
structure Informed (base : Transport) (place : Nat) (errands : List Errand)
    (credentials : Credentials) (first : List Exchange) (acts : List Act)
    (t : Timeline (Phase base.Phase) Reply) : Prop where
  jobs : t.jobs = errands.map (Errand.job base place)
  length : t.slots.length = errands.length
  grant : ∃ g, t.world.grants[place]? = some g ∧ Holds credentials acts g ∧
    ∀ k errand slot, errands[k]? = some errand → t.slots[k]? = some slot →
      Stand errand k g (steps k acts) slot
  strangers : ∀ k, errands[k]? = none → steps k acts = []
  recorded : Recorded errands credentials acts
  sent : base.SendsOnce → t.world.sent = first ++ acts.filterMap Act.exchange?

theorem Holds.after (h : Holds credentials acts g) (hafter : After g reply? g')
    (hheard : more.filterMap Act.issued? = (reply?.bind issuedIn).toList) :
    Holds credentials (acts ++ more) g' where
  credentials := hafter.credentials.trans h.credentials
  token := by
    rw [latest?_append, latest?_of_issued hheard]
    cases hissued : reply?.bind issuedIn with
    | none => exact (hafter.kept hissued).1.trans h.token
    | some issued => exact hafter.replaced hissued
  stocked := hafter.stocked h.stocked

/-- A grant with a token has that of the latest reply with one. -/
theorem Holds.latest (h : Holds credentials acts g) (hne : g.token ≠ []) :
    ∃ issued, latest? acts = some issued ∧ issued.token = g.token := by
  have htoken := h.token
  cases hissued : latest? acts with
  | none =>
      rw [hissued] at htoken
      exact absurd htoken hne
  | some issued =>
      rw [hissued] at htoken
      exact ⟨issued, rfl, htoken.symm⟩

theorem Recorded.turn (h : Recorded errands credentials acts) (hholds : Holds credentials acts g)
    (herrand : errands[i]? = some errand) {own : List Act}
    (hdone : Done base i errand w g own more reply? g' slot' w') :
    Recorded errands credentials (acts ++ more) where
  asks := by
    intro k exchange hmem
    rcases List.mem_append.mp hmem with hold | hnew
    · exact h.asks hold
    · rw [← hholds.credentials]
      exact hdone.asks hnew
  bears := by
    intro earlier k request later heq
    rcases append_eq_append_cons heq with ⟨later, hold⟩ | ⟨between, rfl, hnew⟩
    · exact h.bears hold
    · have hmem : .bears k request ∈ more := hnew ▸ List.mem_append_right _ List.mem_cons_self
      obtain ⟨hone, rfl, hne, rfl⟩ := hdone.bears hmem
      obtain ⟨issued, hlatest, htoken⟩ := hholds.latest hne
      obtain rfl : between = [] := by
        rw [hone] at hnew
        cases between with
        | nil => rfl
        | cons act between => simp at hnew
      rw [List.append_nil]
      exact ⟨errand, issued, herrand, hlatest, by rw [htoken]⟩

theorem Informed.turned (h : Informed base place errands credentials first acts t)
    (hholds : Holds credentials acts g)
    (hstands : ∀ k errand slot, errands[k]? = some errand → t.slots[k]? = some slot →
      Stand errand k g (steps k acts) slot)
    (herrand : errands[i]? = some errand)
    (hdone : Done base i errand t.world g (steps i acts) more reply? g' slot' w')
    (hg' : w'.grants[place]? = some g') (job : Job (Phase base.Phase) Reply) :
    Informed base place errands credentials first (acts ++ more) (t.turned i job slot' w') where
  jobs := h.jobs
  length := (List.length_set ..).trans h.length
  grant := by
    refine ⟨g', hg', hholds.after hdone.after hdone.heard, ?_⟩
    intro k errandₖ slotₖ herrandₖ hslotₖ
    rw [steps_append]
    rcases getElem?_set_cases hslotₖ with ⟨rfl, rfl⟩ | ⟨hne, hold⟩
    · obtain rfl := Option.some.inj (herrand.symm.trans herrandₖ)
      exact hdone.stand
    · rw [hdone.others k hne, List.append_nil]
      exact (hstands k errandₖ slotₖ herrandₖ hold).ages hdone.after.toAges
  strangers := by
    intro k hnone
    have hne : k ≠ i := by
      rintro rfl
      cases herrand.symm.trans hnone
    rw [steps_append, h.strangers k hnone, hdone.others k hne]
    rfl
  recorded := h.recorded.turn hholds herrand hdone
  sent := by
    intro hsends
    rw [List.filterMap_append, ← List.append_assoc, ← h.sent hsends]
    exact hdone.sent hsends

theorem Informed.keep (h : Informed base place errands credentials first acts t)
    (hjobs : t'.jobs = t.jobs) (hslots : t'.slots = t.slots)
    (hgrants : t'.world.grants = t.world.grants) (hsent : t'.world.sent = t.world.sent) :
    Informed base place errands credentials first acts t' where
  jobs := hjobs.trans h.jobs
  length := hslots ▸ h.length
  grant := by
    rw [hgrants, hslots]
    exact h.grant
  strangers := h.strangers
  recorded := h.recorded
  sent hsends := hsent.trans (h.sent hsends)

theorem Informed.pass (h : Informed base place errands credentials first acts t)
    (hnext : Next none t t') : Informed base place errands credentials first acts t' := by
  cases hnext with
  | passage => exact h.keep rfl rfl rfl rfl
  | cancellation => exact h.keep rfl rfl rfl rfl

theorem Informed.nobody (h : Informed base place errands credentials first acts t)
    (hnext : Next (some i) t t') (hnobody : errands[i]? = none ∨ t.slots[i]? = none) :
    t' = t.leaveLine i ∧ Informed base place errands credentials first acts t' := by
  cases hnext.turned with
  | nobody => exact ⟨rfl, h.keep rfl rfl rfl rfl⟩
  | somebody hjob hslot =>
      rw [h.jobs, List.getElem?_map, Option.map_eq_some_iff] at hjob
      obtain ⟨errand, herrand, -⟩ := hjob
      rw [herrand, hslot] at hnobody
      rcases hnobody with hnobody | hnobody
      · cases hnobody
      · cases hnobody

theorem Informed.eq_turned (h : Informed base place errands credentials first acts t)
    (hnext : Next (some i) t t') (herrand : errands[i]? = some errand)
    (hslot : t.slots[i]? = some slot) :
    t' = t.turned i (errand.job base place) (work t.turn (errand.job base place) t.world slot).1
      (work t.turn (errand.job base place) t.world slot).2 := by
  have hjob : t.jobs[i]? = some (errand.job base place) := by
    rw [h.jobs, List.getElem?_map, herrand]
    rfl
  cases hnext.turned with
  | nobody hnobody =>
      rw [hjob, hslot] at hnobody
      rcases hnobody with hnobody | hnobody
      · cases hnobody
      · cases hnobody
  | somebody hjob' hslot' _ hwork =>
      obtain rfl := Option.some.inj (hjob.symm.trans hjob')
      obtain rfl := Option.some.inj (hslot.symm.trans hslot')
      rw [hwork]

/-- The token of a grant and its expiry stay as they are. -/
def KeepsToken (place : Nat) (w w' : World) : Prop :=
  (w'.grant place).token = (w.grant place).token ∧
    (w'.grant place).expiry = (w.grant place).expiry

/-- **One turn more.**  The acts stay in accord with the timeline, and a turn in which no token is
heard leaves the token as it is. -/
theorem Informed.turn (hbase : base.KeepsApart)
    (h : Informed base place errands credentials first acts t) (hnext : Next (some i) t t')
    (herrand : errands[i]? = some errand) (hslot : t.slots[i]? = some slot)
    (hperforms : Performs base place i errand t.world slot more) :
    Informed base place errands credentials first (acts ++ more) t' ∧
      (more.filterMap Act.issued? = [] → KeepsToken place t.world t'.world) := by
  obtain ⟨g, hg, hholds, hstands⟩ := h.grant
  obtain ⟨g', reply?, hg', hdone⟩ := hperforms.done hbase hg hholds.stocked
    (hstands i errand slot herrand hslot) t.turn
  have ht' := h.eq_turned hnext herrand hslot
  subst ht'
  refine ⟨h.turned hholds hstands herrand hdone hg' _, ?_⟩
  intro hnone
  rw [hdone.heard, Option.toList_eq_nil_iff] at hnone
  have hkept := hdone.after.kept hnone
  have hturned : (t.turned i (errand.job base place)
      (work t.turn (errand.job base place) t.world slot).1
      (work t.turn (errand.job base place) t.world slot).2).world.grants[place]? = some g' := hg'
  rw [KeepsToken, grant_eq hg, grant_eq hturned]
  exact hkept

theorem History.informed (hbase : base.KeepsApart)
    (hfirst : Informed base place errands credentials first [] start)
    (h : History base place errands may start acts t) :
    Informed base place errands credentials first acts t := by
  induction h with
  | refl => exact hfirst
  | pass _ hnext ih => exact ih.pass hnext
  | nobody _ hnext _ hnobody ih => exact (ih.nobody hnext hnobody).2
  | turn _ hnext _ herrand hslot hperforms ih =>
      exact (ih.turn hbase hnext herrand hslot hperforms).1

theorem History.next (hbase : base.KeepsApart)
    (hfirst : Informed base place errands credentials first [] start)
    (h : History base place errands may start acts t) (hnext : Next (some i) t t')
    (hmay : may t i) : ∃ acts', History base place errands may start acts' t' := by
  obtain ⟨g, hg, -⟩ := (h.informed hbase hfirst).grant
  cases herrand : errands[i]? with
  | none => exact ⟨acts, h.nobody hnext hmay (.inl herrand)⟩
  | some errand =>
      cases hslot : t.slots[i]? with
      | none => exact ⟨acts, h.nobody hnext hmay (.inr hslot)⟩
      | some slot =>
          obtain ⟨more, hperforms⟩ := exists_performs hg i errand slot
          exact ⟨acts ++ more, h.turn hnext hmay herrand hslot hperforms⟩

/-- Who has done a step of an errand has one, and stands where its steps have brought it. -/
theorem Informed.stand (h : Informed base place errands credentials first acts t)
    (hne : steps i acts ≠ []) : ∃ errand slot g, errands[i]? = some errand ∧
      t.slots[i]? = some slot ∧ Stand errand i g (steps i acts) slot := by
  obtain ⟨g, -, -, hstands⟩ := h.grant
  cases herrand : errands[i]? with
  | none => exact absurd (h.strangers i herrand) hne
  | some errand =>
      have hlt : i < t.slots.length := h.length ▸ (List.getElem?_eq_some_iff.mp herrand).1
      have hslot := List.getElem?_eq_getElem hlt
      exact ⟨errand, _, g, rfl, hslot, hstands i errand _ herrand hslot⟩

/-- **A caller that hands over its request has read the headers before, and acquired a token
before that.** -/
theorem Informed.due (h : Informed base place errands credentials first acts t)
    {exchange : Exchange} (hacts : acts = earlier ++ .sends i exchange :: later) :
    Due errands earlier i exchange := by
  have hsteps : steps i acts = steps i earlier ++ .sends i exchange :: steps i later := by
    rw [hacts, steps_append, ← List.singleton_append, steps_append]
    simp [steps, Act.isStepOf]
  obtain ⟨errand, slot, g, herrand, -, hstand⟩ := h.stand (i := i) (by rw [hsteps]; simp)
  obtain ⟨hurl, hown⟩ := hstand.sends hsteps
  obtain ⟨l₁, l₂, hearlier, -, -, hrest⟩ := List.filter_eq_cons_iff.mp hown
  obtain ⟨l₃, between, rfl, -, -, hbetween⟩ := List.filter_eq_cons_iff.mp hrest
  have hread : earlier =
      (l₁ ++ .acquires i (.ok ()) :: l₃) ++ .bears i exchange.request :: between := by
    rw [hearlier, List.append_assoc, List.cons_append]
  have hall : acts = (l₁ ++ .acquires i (.ok ()) :: l₃) ++
      .bears i exchange.request :: (between ++ .sends i exchange :: later) := by
    rw [hacts, hread, List.append_assoc, List.cons_append]
  obtain ⟨errand', issued, herrand', hlatest, hrequest⟩ := h.recorded.bears hall
  obtain rfl := Option.some.inj (herrand.symm.trans herrand')
  refine ⟨errand, issued, _, between, herrand, hread, hbetween,
    List.mem_append_right _ List.mem_cons_self, hlatest, hurl, ?_⟩
  rw [hrequest]
  exact bearing_bears _ _

theorem after_andThen {φ ψ ρ τ : Type} {stretch : Stretch φ ρ} {within : φ → ψ}
    {next : ρ → World → Stretch ψ τ} {turn since : Nat} {phase : ψ} {wait : Wait}
    (h : Slot.after turn (stretch.andThen within next) = .waiting phase wait since) :
    (∃ inner, phase = within inner) ∨
      ∃ result w, Slot.after turn (next result w) = .waiting phase wait since := by
  obtain ⟨progress, w⟩ := stretch
  cases progress with
  | done result => exact .inr ⟨result, w, h⟩
  | paused inner wait' =>
      cases h
      exact .inl ⟨inner, rfl⟩

theorem Performs.eq_bears (h : Performs base place i errand w slot more) {turn : Nat} {url : Url}
    {request : Request} {wait : Wait} {since : Nat}
    (hwork : (work turn (errand.job base place) w slot).1 =
      .waiting (.bearing url request) wait since) : more = [.bears i request] := by
  cases h with
  | early hearly =>
      rw [work_early hearly] at hwork
      cases hwork
  | acquires hacquires =>
      have hnot {stretch : Stretch (Acquire.Phase base.Phase) Acquire.Result} {url' : Url}
          {request' : Request} : Slot.after turn (stretch.andThen (.acquiring url' request')
            (proceed url' request')) ≠ .waiting (.bearing url request) wait since := by
        intro heq
        rcases after_andThen heq with ⟨_, hphase⟩ | ⟨result, w', hafter⟩
        · cases hphase
        · cases result with
          | error failure => cases hafter
          | ok => cases hafter
      cases hacquires with
      | beginning hdue =>
          rw [work_begin (Int.not_lt.mpr hdue)] at hwork
          exact absurd hwork hnot
      | goingOn => exact absurd hwork hnot
  | bears =>
      cases hwork
      rfl
  | sends =>
      rcases after_andThen hwork with ⟨_, hphase⟩ | ⟨result, w', hafter⟩
      · cases hphase
      · cases hafter
  | waits =>
      rcases after_andThen hwork with ⟨_, hphase⟩ | ⟨result, w', hafter⟩
      · cases hphase
      · cases hafter
  | spent => cases hwork

theorem Performs.eq_sends (h : Performs base place i errand w slot more) {exchange : Exchange}
    (hmem : .sends k exchange ∈ more) : more = [.sends k exchange] ∧ k = i ∧
      ∃ url wait since, slot = .waiting (.bearing url exchange.request) wait since := by
  cases h with
  | early => cases hmem
  | acquires => simp [acquiringActs] at hmem
  | bears => simp at hmem
  | sends =>
      obtain ⟨rfl, rfl⟩ := Act.sends.inj (List.mem_singleton.mp hmem)
      exact ⟨rfl, rfl, _, _, _, rfl⟩
  | waits => cases hmem
  | spent => cases hmem

/-- When nobody has a turn between them, reading the headers and handing over the request follow
each other. -/
structure Joined (acts : List Act) (t : Timeline (Phase base.Phase) Reply) : Prop where
  reads : ∀ {k request}, HasRead t k request → ∃ before, acts = before ++ [.bears k request]
  sends : ∀ {earlier i exchange later}, acts = earlier ++ .sends i exchange :: later →
    ∃ before, earlier = before ++ [.bears i exchange.request]

theorem Joined.turn (h : Joined acts t)
    (hinformed : Informed base place errands credentials first acts t)
    (hnext : Next (some i) t t') (hmay : undivided t i) (herrand : errands[i]? = some errand)
    (hslot : t.slots[i]? = some slot)
    (hperforms : Performs base place i errand t.world slot more) : Joined (acts ++ more) t' where
  reads := by
    rintro k request ⟨url, wait, since, hk⟩
    rw [hinformed.eq_turned hnext herrand hslot] at hk
    rcases getElem?_set_cases hk with ⟨rfl, hwork⟩ | ⟨hne, hold⟩
    · exact ⟨acts, by rw [hperforms.eq_bears hwork]⟩
    · exact absurd (hmay k request ⟨url, wait, since, hold⟩) hne
  sends := by
    intro earlier k exchange later heq
    rcases append_eq_append_cons heq with ⟨later, hold⟩ | ⟨between, rfl, hnew⟩
    · exact h.sends hold
    · have hmem : .sends k exchange ∈ more := hnew ▸ List.mem_append_right _ List.mem_cons_self
      obtain ⟨hone, rfl, url, wait, since, rfl⟩ := hperforms.eq_sends hmem
      obtain rfl : between = [] := by
        rw [hone] at hnew
        cases between with
        | nil => rfl
        | cons act between => simp at hnew
      rw [List.append_nil]
      exact h.reads ⟨url, wait, since, hslot⟩

theorem History.joined (hbase : base.KeepsApart)
    (hfirst : Informed base place errands credentials first [] start)
    (hnobody : ∀ k request, ¬ HasRead start k request)
    (h : History base place errands undivided start acts t) : Joined acts t := by
  induction h with
  | refl =>
      refine ⟨fun hread => absurd hread (hnobody _ _), ?_⟩
      intro earlier i exchange later hacts
      cases (List.nil_eq_append_iff.mp hacts).2
  | pass _ hnext ih =>
      refine ⟨?_, ih.sends⟩
      rintro k request ⟨url, wait, since, hk⟩
      rcases hnext.slots_cases k with hsame | hlabel
      · exact ih.reads ⟨url, wait, since, hsame ▸ hk⟩
      · cases hlabel
  | nobody hhistory hnext _ hnone ih =>
      obtain ⟨rfl, -⟩ := (hhistory.informed hbase hfirst).nobody hnext hnone
      exact ⟨ih.reads, ih.sends⟩
  | turn hhistory hnext hmay herrand hslot hperforms ih =>
      exact ih.turn (hhistory.informed hbase hfirst) hnext hmay herrand hslot hperforms

theorem job_brisk (hbrisk : base.Brisk) (place : Nat) (errand : Errand) :
    (errand.job base place).Brisk := by
  have hproceed (url : Url) (request : Request) (result : Acquire.Result) (w : World) :
      (proceed url request result w : Stretch (Phase base.Phase) Reply).Brisk := by
    cases result with
    | error failure => exact Stretch.brisk_done _ _
    | ok => exact Stretch.brisk_yield _ _
  have hreply (reply : Reply) (w : World) :
      Stretch.Brisk ((.done reply, w) : Stretch (Phase base.Phase) Reply) :=
    Stretch.brisk_done _ _
  constructor
  · intro w
    exact (Acquire.turnFrom_brisk hbrisk place errand.caller none w).andThen (hproceed _ _)
  · intro phase w
    cases phase with
    | acquiring url request phase =>
        exact (Acquire.turnFrom_brisk hbrisk place errand.caller (some phase) w).andThen
          (hproceed _ _)
    | acquired url request => exact Stretch.brisk_yield _ _
    | bearing url request => exact (hbrisk.start _ _ _ _).andThen hreply
    | sending phase => exact (hbrisk.resume _ _ _).andThen hreply

/-- Who has read the headers pauses only briefly. -/
theorem Informed.pausesBriefly (h : Informed base place errands credentials first acts t)
    {request : Request} (hread : HasRead t k request) : t.PausesBriefly k := by
  obtain ⟨url, wait, since, hslot⟩ := hread
  obtain ⟨g, -, -, hstands⟩ := h.grant
  have hlt : k < errands.length := h.length ▸ (List.getElem?_eq_some_iff.mp hslot).1
  have hstand := hstands k _ _ (List.getElem?_eq_getElem hlt) hslot
  generalize steps k acts = own at hstand
  cases hstand with
  | bearing hbrief => exact ⟨_, wait, since, hslot, hbrief⟩

end

end Authorized

end Transport

end BearerAuth
