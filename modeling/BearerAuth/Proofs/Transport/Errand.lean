import BearerAuth.Proofs.Grant.Ledger
import BearerAuth.Proofs.Grant.Promise
import BearerAuth.Proofs.Headers
import BearerAuth.Proofs.Stretch
import BearerAuth.Proofs.Timeline.Step

/-!
# Errands

A caller of an authorized transport has an errand: a request to send.  In its turns it acquires a
token, in the next one its request gets the headers of the grant, and in the next the request is
handed over.  `Performs` says which acts a turn comes to, as the world before it shows, and
`Performs.done` what they leave behind: of the grant, which changes its token only when a reply with
one has been heard (`After`), and of the caller, which stands where its own acts have brought it
(`Stand`).
-/

namespace BearerAuth

open Timeline

namespace Transport

namespace Authorized

/-- A request that a caller has to send from an instant on. -/
structure Errand where
  begins : Instant
  caller : Caller
  url : Url
  request : Request

def Errand.job (base : Transport) (place : Nat) (errand : Errand) :
    Job (Phase base.Phase) Reply where
  caller := errand.caller
  begins := errand.begins
  start := (authorized base place).start errand.caller errand.url errand.request
  resume := (authorized base place).resume errand.caller

/-! ## Acts -/

/-- What callers do. -/
inductive Act where
  /-- A caller hands over a token request. -/
  | asks (i : Ticket) (exchange : Exchange)
  /-- It has the reply to its token request. -/
  | hears (i : Ticket) (reply : Reply)
  /-- It is done with acquiring a token. -/
  | acquires (i : Ticket) (result : Acquire.Result)
  /-- It reads the headers of the grant, and its request goes on with them. -/
  | bears (i : Ticket) (request : Request)
  /-- It hands over its request. -/
  | sends (i : Ticket) (exchange : Exchange)

/-- What is handed over in an act. -/
def Act.exchange? : Act → Option Exchange
  | .asks _ exchange => some exchange
  | .sends _ exchange => some exchange
  | _ => none

/-- The token of a reply. -/
def issuedIn (reply : Reply) : Option IssuedToken := (IssuedToken.ofReply reply).toOption

/-- The token that is heard in an act. -/
def Act.issued? : Act → Option IssuedToken
  | .hears _ reply => issuedIn reply
  | _ => none

/-- An act is a step of a caller's errand. -/
def Act.isStepOf (k : Ticket) : Act → Bool
  | .acquires i _ | .bears i _ | .sends i _ => i == k
  | _ => false

def steps (k : Ticket) (acts : List Act) : List Act := acts.filter (Act.isStepOf k)

/-- The token of the latest reply that had one. -/
def latest? (acts : List Act) : Option IssuedToken := (acts.filterMap Act.issued?).getLast?

def resultOf {φ ρ : Type} : Progress φ ρ → Option ρ
  | .done result => some result
  | .paused _ _ => none

/-- A caller acquires in its turn: it begins to, or goes on with it. -/
inductive Acquires {φ : Type} (errand : Errand) (now : Instant) :
    Slot (Phase φ) Reply → Option (Acquire.Phase φ) → Prop
  | beginning {since : Option Nat} : errand.begins ≤ now →
      Acquires errand now (.idle since) none
  | goingOn {url : Url} {request : Request} {phase : Acquire.Phase φ} {wait : Wait}
      {since : Nat} :
      Acquires errand now (.waiting (.acquiring url request phase) wait since) (some phase)

/-- The acts of a turn in which a caller acquires: it hands over a token request, has the reply,
and is done, as far as it comes. -/
def acquiringActs (i : Ticket) (exchange? : Option Exchange) (reply? : Option Reply)
    (result? : Option Acquire.Result) : List Act :=
  (exchange?.map (.asks i)).toList ++ (reply?.map (.hears i)).toList ++
    (result?.map (.acquires i)).toList

/-- The acts of a turn, as the world before it shows. -/
inductive Performs (base : Transport) (place : Nat) (i : Ticket) (errand : Errand) (w : World) :
    Slot (Phase base.Phase) Reply → List Act → Prop
  | early {since : Option Nat} : w.now < errand.begins →
      Performs base place i errand w (.idle since) []
  | acquires {slot : Slot (Phase base.Phase) Reply} {before : Option (Acquire.Phase base.Phase)}
      {exchange? : Option Exchange} {reply? : Option Reply} : Acquires errand w.now slot before →
      (∀ exchange, Acquire.Fetches (w.grant place) w.now before ∧
        exchange = Acquire.tokenExchange (w.grant place) w.now ↔ exchange? = some exchange) →
      (∀ reply, Acquire.Replied base place errand.caller w before reply ↔ reply? = some reply) →
      Performs base place i errand w slot (acquiringActs i exchange? reply?
        (resultOf (Acquire.turnFrom base place errand.caller before w).1))
  | bears {url : Url} {request : Request} {wait : Wait} {since : Nat} :
      Performs base place i errand w (.waiting (.acquired url request) wait since)
        [.bears i (authorize (w.grant place) request)]
  | sends {url : Url} {request : Request} {wait : Wait} {since : Nat} :
      Performs base place i errand w (.waiting (.bearing url request) wait since)
        [.sends i ⟨w.now, url, request⟩]
  /-- The request has been handed over. -/
  | waits {phase : base.Phase} {wait : Wait} {since : Nat} :
      Performs base place i errand w (.waiting (.sending phase) wait since) []
  | spent {result : Reply} {world : World} :
      Performs base place i errand w (.ended result world) []

section

variable {base : Transport} {place : Nat} {errand : Errand} {caller : Caller} {w w' : World}
  {g g' : Grant} {i k : Ticket} {acts more : List Act} {exchange? : Option Exchange}
  {reply? : Option Reply} {slot : Slot (Phase base.Phase) Reply}

theorem exists_performs (hg : w.grants[place]? = some g) (i : Ticket) (errand : Errand)
    (slot : Slot (Phase base.Phase) Reply) :
    ∃ more, Performs base place i errand w slot more := by
  have hacquires {before : Option (Acquire.Phase base.Phase)}
      (h : Acquires errand w.now slot before) :
      ∃ more, Performs base place i errand w slot more := by
    obtain ⟨exchange?, reply?, hturn⟩ := Acquire.turnFrom_turn errand.caller hg before
    exact ⟨_, .acquires h (grant_eq hg ▸ hturn.fetches_iff) (hturn.replied_iff hg)⟩
  cases slot with
  | idle since =>
      by_cases hearly : w.now < errand.begins
      · exact ⟨[], .early hearly⟩
      · exact hacquires (.beginning (Int.not_lt.mp hearly))
  | waiting phase wait since =>
      cases phase with
      | acquiring url request phase => exact hacquires .goingOn
      | acquired url request => exact ⟨_, .bears⟩
      | bearing url request => exact ⟨_, .sends⟩
      | sending phase => exact ⟨[], .waits⟩
  | ended result world => exact ⟨[], .spent⟩

theorem latest?_append (acts more : List Act) :
    latest? (acts ++ more) = (latest? more).or (latest? acts) := by
  rw [latest?, List.filterMap_append, List.getLast?_append]
  rfl

theorem latest?_of_issued {issued? : Option IssuedToken}
    (h : more.filterMap Act.issued? = issued?.toList) : latest? more = issued? := by
  rw [latest?, h]
  cases issued? <;> rfl

theorem steps_append (k : Ticket) (acts more : List Act) :
    steps k (acts ++ more) = steps k acts ++ steps k more :=
  List.filter_append ..

section

variable {result? : Option Acquire.Result}

theorem steps_acquiringActs : steps k (acquiringActs i exchange? reply? result?) =
    if i = k then (result?.map (.acquires i)).toList else [] := by
  cases exchange? <;> cases reply? <;> cases result? <;> by_cases h : i = k <;>
    simp [acquiringActs, steps, Act.isStepOf, h]

theorem issued_acquiringActs :
    (acquiringActs i exchange? reply? result?).filterMap Act.issued? =
      (reply?.bind issuedIn).toList := by
  have hasks : ((exchange?.map (Act.asks i)).toList).filterMap Act.issued? = [] := by
    cases exchange? <;> rfl
  have hdone : ((result?.map (Act.acquires i)).toList).filterMap Act.issued? = [] := by
    cases result? <;> rfl
  have hheard : ((reply?.map (Act.hears i)).toList).filterMap Act.issued? =
      (reply?.bind issuedIn).toList := by
    cases reply? with
    | none => rfl
    | some reply => cases h : issuedIn reply <;> simp [Act.issued?, h]
  simp only [acquiringActs, List.filterMap_append, hasks, hheard, hdone, List.nil_append,
    List.append_nil]

theorem exchanges_acquiringActs :
    (acquiringActs i exchange? reply? result?).filterMap Act.exchange? = exchange?.toList := by
  cases exchange? <;> cases reply? <;> cases result? <;> simp [acquiringActs, Act.exchange?]

theorem eq_of_asks_mem {exchange : Exchange}
    (h : .asks k exchange ∈ acquiringActs i exchange? reply? result?) :
    exchange? = some exchange := by
  simp only [acquiringActs, List.mem_append, Option.mem_toList,
    Option.map_eq_some_iff] at h
  obtain (⟨exchange', hasked, heq⟩ | ⟨_, _, heq⟩) | ⟨_, _, heq⟩ := h
  · rw [← (Act.asks.inj heq).2, hasked]
  · cases heq
  · cases heq

theorem bears_notMem_acquiringActs {request : Request} :
    .bears k request ∉ acquiringActs i exchange? reply? result? := by
  simp [acquiringActs]

end

/-! ## The grant -/

/-- After a publication that was no failure there is a token. -/
def Stocked (g : Grant) : Prop := 0 < g.published → g.failure = none → g.token ≠ []

/-- What a caller that acquires knows of the grant: it has seen no more publications than there
were, and when its wait was not in vain there is a token. -/
def Knows {φ : Type} (g : Grant) : Acquire.Phase φ → Prop
  | .fetching _ => True
  | .joining seen | .awaiting seen => seen ≤ g.published
  | .returning ending => ending = .refreshed → g.token ≠ []

/-- A turn leaves a caller that acquires with what it knows of the grant, and one that may go on
with a token. -/
def Leaves {φ : Type} (g : Grant) : Progress (Acquire.Phase φ) Acquire.Result → Prop
  | .paused phase _ => Knows g phase
  | .done result => result = .ok () → g.token ≠ []

/-- A grant after a turn in which the reply to a token request came, or none did. -/
structure After (g : Grant) (reply? : Option Reply) (g' : Grant) : Prop extends g.Ages g' where
  kept : reply?.bind issuedIn = none → g'.token = g.token ∧ g'.expiry = g.expiry
  replaced : ∀ {issued}, reply?.bind issuedIn = some issued → g'.token = issued.token
  stocked : Stocked g → Stocked g'

theorem Knows.ages {φ : Type} {phase : Acquire.Phase φ} (h : Knows g phase) (hages : g.Ages g') :
    Knows g' phase := by
  cases phase with
  | fetching phase => trivial
  | joining seen => exact Nat.le_trans h hages.published
  | awaiting seen => exact Nat.le_trans h hages.published
  | returning ending => exact fun hending => hages.token (h hending)

theorem After.same (hcredentials : g'.credentials = g.credentials) (htoken : g'.token = g.token)
    (hexpiry : g'.expiry = g.expiry) (hpublished : g'.published = g.published)
    (hfailure : g'.failure = g.failure) : After g none g' where
  credentials := hcredentials
  published := Nat.le_of_eq hpublished.symm
  token := htoken ▸ id
  kept _ := ⟨htoken, hexpiry⟩
  replaced := nofun
  stocked := by
    intro hstocked
    rw [Stocked, hpublished, hfailure, htoken]
    exact hstocked

theorem After.refl (g : Grant) : After g none g := .same rfl rfl rfl rfl rfl

theorem After.publish (h : After g none g') (now : Instant) (reply : Reply) :
    After g (some reply) (g'.publish now (IssuedToken.ofReply reply)) := by
  obtain ⟨htoken, hexpiry⟩ := h.kept rfl
  have hissued : (some reply).bind issuedIn = (IssuedToken.ofReply reply).toOption := rfl
  cases houtcome : IssuedToken.ofReply reply with
  | error failure =>
      rw [houtcome] at hissued
      refine ⟨⟨h.credentials, Nat.le_succ_of_le h.published, h.token⟩, fun _ => ⟨htoken, hexpiry⟩,
        ?_, nofun⟩
      intro issued hsome
      cases hissued.symm.trans hsome
  | ok issued =>
      rw [houtcome] at hissued
      have hne : issued.token ≠ [] := Acquire.token_ne_nil_of_reply houtcome
      refine ⟨⟨h.credentials, Nat.le_succ_of_le h.published, fun _ => hne⟩, ?_, ?_,
        fun _ _ _ => hne⟩
      · intro hnone
        cases hissued.symm.trans hnone
      · intro issued' hsome
        obtain rfl := Option.some.inj (hissued.symm.trans hsome)
        rfl

theorem leaves_publish {φ : Type} {reply : Reply} (g : Grant) (now : Instant) :
    Leaves (φ := φ) (g.publish now (IssuedToken.ofReply reply))
      (.done ((IssuedToken.ofReply reply).map fun _ => ())) := by
  intro hdone
  cases houtcome : IssuedToken.ofReply reply with
  | ok issued => exact Acquire.token_ne_nil_of_reply houtcome
  | error failure =>
      rw [houtcome] at hdone
      cases hdone

/-- **What a turn of one who acquires leaves of the grant.** -/
theorem after_of_turn (hbase : base.KeepsApart) (hg : w.grants[place]? = some g)
    (hstocked : Stocked g) {before : Option (Acquire.Phase base.Phase)}
    (hknows : ∀ phase, before = some phase → Knows g phase)
    {stretch : Stretch (Acquire.Phase base.Phase) Acquire.Result}
    (h : Acquire.Turn base place caller w g before exchange? reply? stretch) :
    ∃ g', stretch.2.grants[place]? = some g' ∧ After g reply? g' ∧ Leaves g' stretch.1 := by
  have hbegun : After g none g.beginFetch := .same rfl rfl rfl rfl rfl
  cases h with
  | serves _ hfresh =>
      refine ⟨g, hg, .refl g, fun _ hnil => ?_⟩
      simp [Grant.isFresh, hnil] at hfresh
  | sees => exact ⟨g, hg, .refl g, Nat.le_refl _⟩
  | asks _ hstart => exact ⟨_, (Acquire.start_leaves hbase hg hstart).1, hbegun, trivial⟩
  | exchanges _ hstart =>
      have hg' := (Acquire.start_leaves hbase hg hstart).1
      exact ⟨_, Acquire.getElem?_publish hg' _, hbegun.publish _ _, leaves_publish _ _⟩
  | continues hresume =>
      exact ⟨g, (Acquire.resume_leaves hbase hg hresume).1, .refl g, trivial⟩
  | receives hresume =>
      have hg' := (Acquire.resume_leaves hbase hg hresume).1
      exact ⟨_, Acquire.getElem?_publish hg' _, (After.refl g).publish _ _, leaves_publish _ _⟩
  | joins =>
      exact ⟨_, getElem?_setGrant hg, .same rfl rfl rfl rfl rfl, Nat.le_refl g.published⟩
  | late => exact ⟨g, hg, .refl g, hknows _ rfl⟩
  | hears hnews =>
      -- There has been a publication, so without a failure there is a token.
      have hseen := hknows _ rfl
      refine ⟨g, hg, .refl g, fun hrefreshed => ?_⟩
      exact hstocked (Nat.lt_of_le_of_lt (Nat.zero_le _) (Nat.lt_of_le_of_ne hseen (Ne.symm hnews)))
        (Acquire.Ending.ofGrant_eq_refreshed hrefreshed)
  | leaves =>
      refine ⟨_, getElem?_setGrant hg, .same rfl rfl rfl rfl rfl, fun hrefreshed => ?_⟩
      exact absurd hrefreshed (Acquire.Ending.ofCaller_ne_refreshed w caller)
  | ends hends =>
      refine ⟨g, hg, .refl g, fun hok => hknows _ rfl ?_⟩
      exact Acquire.Ending.eq_refreshed_of_result (hok ▸ hends)

/-! ## The caller -/

/-- Where a caller stands, given the steps of its errand so far. -/
inductive Stand {φ : Type} (errand : Errand) (k : Ticket) (g : Grant) :
    List Act → Slot (Phase φ) Reply → Prop
  | idle {since : Option Nat} : Stand errand k g [] (.idle since)
  | acquiring {phase : Acquire.Phase φ} {wait : Wait} {since : Nat} : Knows g phase →
      Stand errand k g [] (.waiting (.acquiring errand.url errand.request phase) wait since)
  | acquired {wait : Wait} {since : Nat} : g.token ≠ [] →
      Stand errand k g [.acquires k (.ok ())]
        (.waiting (.acquired errand.url errand.request) wait since)
  | bearing {request : Request} {wait : Wait} {since : Nat} : wait.brief = true →
      Stand errand k g [.acquires k (.ok ()), .bears k request]
        (.waiting (.bearing errand.url request) wait since)
  | sending {request : Request} {instant : Instant} {phase : φ} {wait : Wait} {since : Nat} :
      Stand errand k g
        [.acquires k (.ok ()), .bears k request, .sends k ⟨instant, errand.url, request⟩]
        (.waiting (.sending phase) wait since)
  | served {request : Request} {instant : Instant} {result : Reply} {world : World} :
      Stand errand k g
        [.acquires k (.ok ()), .bears k request, .sends k ⟨instant, errand.url, request⟩]
        (.ended result world)
  | refused {failure : Failure} {world : World} :
      Stand errand k g [.acquires k (.error failure)] (.ended (.error failure) world)

theorem Stand.ages {φ : Type} {own : List Act} {slot : Slot (Phase φ) Reply}
    (h : Stand errand k g own slot) (hages : g.Ages g') : Stand errand k g' own slot := by
  cases h with
  | idle => exact .idle
  | acquiring hknows => exact .acquiring (hknows.ages hages)
  | acquired hne => exact .acquired (hages.token hne)
  | bearing hbrief => exact .bearing hbrief
  | sending => exact .sending
  | served => exact .served
  | refused => exact .refused

/-- A caller goes through the steps of its errand in their order, or does not get a token. -/
theorem Stand.course {φ : Type} {own : List Act} {slot : Slot (Phase φ) Reply}
    (h : Stand errand k g own slot) :
    (∃ request instant, own <+: [.acquires k (.ok ()), .bears k request,
      .sends k ⟨instant, errand.url, request⟩]) ∨
    ∃ failure, own = [.acquires k (.error failure)] := by
  cases h with
  | idle => exact .inl ⟨errand.request, 0, List.nil_prefix⟩
  | acquiring => exact .inl ⟨errand.request, 0, List.nil_prefix⟩
  | acquired => exact .inl ⟨errand.request, 0, by simp⟩
  | @bearing request => exact .inl ⟨request, 0, by simp⟩
  | @sending request instant => exact .inl ⟨request, instant, List.prefix_refl _⟩
  | @served request instant => exact .inl ⟨request, instant, List.prefix_refl _⟩
  | @refused failure => exact .inr ⟨failure, rfl⟩

theorem Stand.sends {φ : Type} {own before behind : List Act} {slot : Slot (Phase φ) Reply}
    {exchange : Exchange} (h : Stand errand k g own slot)
    (hown : own = before ++ .sends i exchange :: behind) :
    exchange.url = errand.url ∧
      before = [.acquires k (.ok ()), .bears k exchange.request] := by
  rcases h.course with ⟨request, instant, rest, hall⟩ | ⟨failure, hrefused⟩
  · rw [hown, List.append_assoc] at hall
    match before with
    | [] => simp at hall
    | [_] => simp at hall
    | [_, _] =>
        simp only [List.cons_append, List.nil_append, List.cons.injEq, Act.sends.injEq] at hall
        obtain ⟨rfl, rfl, ⟨-, rfl⟩, -⟩ := hall
        exact ⟨rfl, rfl⟩
    | _ :: _ :: _ :: before => simp at hall
  · rw [hown] at hrefused
    match before with
    | [] => simp at hrefused
    | _ :: before => simp at hrefused

/-- What the acts of a turn leave behind, given the steps of the caller before. -/
structure Done (base : Transport) (i : Ticket) (errand : Errand) (w : World) (g : Grant)
    (own more : List Act) (reply? : Option Reply) (g' : Grant)
    (slot' : Slot (Phase base.Phase) Reply) (w' : World) : Prop where
  after : After g reply? g'
  heard : more.filterMap Act.issued? = (reply?.bind issuedIn).toList
  stand : Stand errand i g' (own ++ steps i more) slot'
  others : ∀ k, k ≠ i → steps k more = []
  asks : ∀ {k exchange}, .asks k exchange ∈ more →
    exchange.url = g.credentials.tokenUrl ∧ exchange.request = g.credentials.request
  bears : ∀ {k request}, .bears k request ∈ more → more = [.bears k request] ∧ k = i ∧
    g.token ≠ [] ∧ request = bearing g.token errand.request
  sent : base.SendsOnce → w'.sent = w.sent ++ more.filterMap Act.exchange?

theorem Done.nothing {own : List Act} {slot' : Slot (Phase base.Phase) Reply}
    (hstand : Stand errand i g own slot') (hsent : base.SendsOnce → w'.sent = w.sent) :
    Done base i errand w g own [] none g slot' w' where
  after := .refl g
  heard := rfl
  stand := (List.append_nil own).symm ▸ hstand
  others _ _ := rfl
  asks := nofun
  bears := nofun
  sent h := (hsent h).trans (List.append_nil _).symm

theorem done_acquiring (hbase : base.KeepsApart) (hg : w.grants[place]? = some g)
    (hstocked : Stocked g) {before : Option (Acquire.Phase base.Phase)}
    (hknows : ∀ phase, before = some phase → Knows g phase)
    {stretch : Stretch (Acquire.Phase base.Phase) Acquire.Result}
    (hturn : Acquire.Turn base place errand.caller w g before exchange? reply? stretch)
    (turn : Nat) {whole : Stretch (Phase base.Phase) Reply}
    (hwhole : whole = stretch.andThen (.acquiring errand.url errand.request)
      (proceed errand.url errand.request)) :
    ∃ g', whole.2.grants[place]? = some g' ∧
      Done base i errand w g [] (acquiringActs i exchange? reply? (resultOf stretch.1)) reply? g'
        (.after turn whole) whole.2 := by
  obtain ⟨g', hg', hafter, hleaves⟩ := after_of_turn hbase hg hstocked hknows hturn
  have hasked {k : Ticket} {exchange : Exchange}
      (hmem : .asks k exchange ∈ acquiringActs i exchange? reply? (resultOf stretch.1)) :
      exchange.url = g.credentials.tokenUrl ∧ exchange.request = g.credentials.request := by
    obtain ⟨-, rfl⟩ := (hturn.fetches_iff exchange).mpr (eq_of_asks_mem hmem)
    exact ⟨rfl, rfl⟩
  have hsent (hsends : base.SendsOnce) : stretch.2.sent = w.sent ++
      (acquiringActs i exchange? reply? (resultOf stretch.1)).filterMap Act.exchange? := by
    rw [exchanges_acquiringActs]
    exact hturn.sent hsends
  have hdone {slot' : Slot (Phase base.Phase) Reply}
      (hstand : Stand errand i g' ((resultOf stretch.1).map (.acquires i)).toList slot') :
      Done base i errand w g [] (acquiringActs i exchange? reply? (resultOf stretch.1)) reply? g'
        slot' stretch.2 :=
    { after := hafter
      heard := issued_acquiringActs
      stand := by rwa [List.nil_append, steps_acquiringActs, if_pos rfl]
      others := fun k hne => by rw [steps_acquiringActs, if_neg (Ne.symm hne)]
      asks := hasked
      bears := fun hmem => absurd hmem bears_notMem_acquiringActs
      sent := hsent }
  subst hwhole
  obtain ⟨progress, w₁⟩ := stretch
  cases progress with
  | paused phase wait => exact ⟨g', hg', hdone (.acquiring hleaves)⟩
  | done result =>
      cases result with
      | error failure => exact ⟨g', hg', hdone .refused⟩
      | ok => exact ⟨g', hg', hdone (.acquired (hleaves rfl))⟩

/-- The turn of a caller that reads the headers. -/
theorem done_bearing (hg : w.grants[place]? = some g) (hne : g.token ≠ [])
    {slot' : Slot (Phase base.Phase) Reply}
    (hstand : Stand errand i g
      [.acquires i (.ok ()), .bears i (authorize (w.grant place) errand.request)] slot') :
    Done base i errand w g [.acquires i (.ok ())]
      [.bears i (authorize (w.grant place) errand.request)] none g slot' w where
  after := .refl g
  heard := rfl
  stand := by
    simp only [steps, Act.isStepOf, List.filter_cons, beq_self_eq_true, if_true]
    exact hstand
  others k hne := by simp [steps, Act.isStepOf, Ne.symm hne]
  asks := nofun
  bears := by
    intro k request hmem
    obtain ⟨rfl, rfl⟩ := Act.bears.inj (List.mem_singleton.mp hmem)
    exact ⟨rfl, rfl, hne, by rw [grant_eq hg, authorize_eq hne]⟩
  sent _ := (List.append_nil _).symm

/-- The turn of a caller that hands over its request. -/
theorem done_sending (hbase : base.KeepsApart) (hg : w.grants[place]? = some g)
    {request : Request} (turn : Nat) {whole : Stretch (Phase base.Phase) Reply}
    (hwhole : whole = send base errand.caller errand.url request w) :
    whole.2.grants[place]? = some g ∧
      Done base i errand w g [.acquires i (.ok ()), .bears i request]
        [.sends i ⟨w.now, errand.url, request⟩] none g (.after turn whole) whole.2 := by
  have houtward := hbase.start errand.caller errand.url request w
  have hsent := fun hsends : base.SendsOnce =>
    hsends.sent_start errand.caller errand.url request w
  have hdone {slot' : Slot (Phase base.Phase) Reply} {w' : World}
      (hstand : Stand errand i g ([.acquires i (.ok ()), .bears i request] ++
        [.sends i ⟨w.now, errand.url, request⟩]) slot')
      (hsent : base.SendsOnce → w'.sent = w.sent ++ [⟨w.now, errand.url, request⟩]) :
      Done base i errand w g [.acquires i (.ok ()), .bears i request]
        [.sends i ⟨w.now, errand.url, request⟩] none g slot' w' :=
    { after := .refl g
      heard := rfl
      stand := by
        simpa only [steps, Act.isStepOf, List.filter_cons, beq_self_eq_true, if_true,
          List.filter_nil] using hstand
      others := fun k hne => by simp [steps, Act.isStepOf, Ne.symm hne]
      asks := by simp
      bears := by simp
      sent := hsent }
  subst hwhole
  rw [send]
  rcases hstart : base.start errand.caller errand.url request w with ⟨reply | ⟨phase, wait⟩, w₁⟩
  · rw [hstart] at houtward hsent
    exact ⟨houtward.grants ▸ hg, hdone .served hsent⟩
  · rw [hstart] at houtward hsent
    exact ⟨houtward.grants ▸ hg, hdone .sending hsent⟩

/-- **What the acts of a turn leave behind.** -/
theorem Performs.done (hbase : base.KeepsApart) (hg : w.grants[place]? = some g)
    (hstocked : Stocked g) {own : List Act} (hstand : Stand errand i g own slot)
    (h : Performs base place i errand w slot more) (turn : Nat) :
    ∃ g' reply?, (work turn (errand.job base place) w slot).2.grants[place]? = some g' ∧
      Done base i errand w g own more reply? g' (work turn (errand.job base place) w slot).1
        (work turn (errand.job base place) w slot).2 := by
  cases h with
  | early hearly =>
      cases hstand with
      | idle =>
          rw [work_early hearly]
          exact ⟨g, none, hg, .nothing .idle fun _ => rfl⟩
  | @acquires _ before exchange? reply? hacquires hasked hreplied =>
      obtain ⟨exchange?', reply?', hturn⟩ := Acquire.turnFrom_turn errand.caller hg before
      obtain rfl : exchange?' = exchange? := Option.ext fun exchange =>
        (hturn.fetches_iff exchange).symm.trans (grant_eq hg ▸ hasked exchange)
      obtain rfl : reply?' = reply? := Option.ext fun reply =>
        (hturn.replied_iff hg reply).symm.trans (hreplied reply)
      have hwhole (hknows : ∀ phase, before = some phase → Knows g phase) :=
        @done_acquiring _ _ _ _ _ i _ _ hbase hg hstocked _ hknows _ hturn turn _ rfl
      cases hacquires with
      | @beginning since hdue =>
          cases hstand with
          | idle =>
              obtain ⟨g', hg', hdone⟩ := hwhole nofun
              rw [work_begin (Int.not_lt.mpr hdue)]
              exact ⟨g', _, hg', hdone⟩
      | goingOn =>
          cases hstand with
          | acquiring hknows =>
              obtain ⟨g', hg', hdone⟩ := hwhole fun _ heq => Option.some.inj heq ▸ hknows
              exact ⟨g', _, hg', hdone⟩
  | bears =>
      cases hstand with
      | acquired hne =>
          exact ⟨g, none, hg, done_bearing hg hne (.bearing rfl)⟩
  | @sends url request =>
      cases hstand with
      | bearing =>
          exact ⟨g, none, done_sending hbase hg turn rfl⟩
  | @waits phase =>
      cases hstand with
      | sending =>
          have houtward := hbase.resume errand.caller phase w
          have hsent := fun hsends : base.SendsOnce => hsends.sent_resume errand.caller phase w
          simp only [work, Errand.job, authorized]
          rcases hresume : base.resume errand.caller phase w with ⟨reply | ⟨phase', wait⟩, w₁⟩
          · rw [hresume] at houtward hsent
            exact ⟨g, none, houtward.grants ▸ hg, .nothing .served hsent⟩
          · rw [hresume] at houtward hsent
            exact ⟨g, none, houtward.grants ▸ hg, .nothing .sending hsent⟩
  | spent => exact ⟨g, none, hg, .nothing hstand fun _ => rfl⟩

end

end Authorized

end Transport

end BearerAuth
