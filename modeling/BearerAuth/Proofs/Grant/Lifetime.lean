import BearerAuth.Introspection.Authenticator
import BearerAuth.Proofs.Clock
import BearerAuth.Proofs.Grant.Ledger

/-!
# How long a token is served

The answer to a token request may say for how many seconds its token can be used.  From the
instant at which it is received until that long after, less the refresh skew, callers are served
from the cache; then the token is fetched anew.

The expiry of a token is kept in a register, and so is the sum that it is compared with.
`servedFromCache_iff` says what is compared, `Holds.kept` that nothing but the answer matters for
it, whatever callers do in the meantime, and the theorems say how the comparison relates to exact
arithmetic.  A lifetime that takes the expiry beyond the register wraps it around, and then the
token is stale at once (`long_lifetime_lost`).  A lifetime of zero or less is not taken at its word:
it counts as the default (`zero_lifetime_served`).
-/

namespace BearerAuth

open Transport Timeline

namespace Acquire

/-! ## Served from the cache -/

/-- A caller goes on at once, and leaves the world as it is: no request is made for it. -/
def ServedFromCache (base : Transport) (place : Nat) (caller : Caller) (w : World) : Prop :=
  start base place caller w = (.done (.ok ()), w)

section

variable {base : Transport} {place : Nat} {caller : Caller} {callers : List (Instant × Caller)}
  {w w' : World} {g g' : Grant}

/-- A caller that fetches does not leave the world as it is: one more fetch was begun. -/
theorem fetch_ne (hbase : base.KeepsApart) (hg : w.grants[place]? = some g) (result : Result) :
    fetch base place caller w ≠ (.done result, w) := by
  intro hsame
  simp only [fetch, grant_eq hg] at hsame
  rcases hstart : base.start caller g.credentials.tokenUrl g.credentials.request
    (w.setGrant place g.beginFetch) with ⟨reply | ⟨phase, wait⟩, w₁⟩
  · have hg' := getElem?_publish (start_leaves hbase hg hstart).1 (IssuedToken.ofReply reply)
    rw [hstart] at hsame
    rw [show publish place (IssuedToken.ofReply reply) w₁ = w from (Prod.mk.inj hsame).2, hg] at hg'
    have hbegun := congrArg Grant.begun (Option.some.inj hg')
    rw [Grant.publish_begun] at hbegun
    exact absurd hbegun (Nat.ne_of_lt (Nat.lt_succ_self _))
  · rw [hstart] at hsame
    cases (Prod.mk.inj hsame).1

theorem servedFromCache_iff (hbase : base.KeepsApart) (hg : w.grants[place]? = some g) :
    ServedFromCache base place caller w ↔ g.isFresh w.now = true := by
  simp only [ServedFromCache, start, grant_eq hg]
  by_cases hfresh : g.isFresh w.now = true
  · simp [hfresh]
  · rw [if_neg hfresh]
    refine ⟨fun hserved => ?_, fun h => absurd h hfresh⟩
    by_cases hbusy : g.busy = true
    · rw [if_pos hbusy] at hserved
      cases (Prod.mk.inj hserved).1
    · rw [if_neg hbusy] at hserved
      exact absurd hserved (fetch_ne hbase hg _)

theorem isFresh_iff {now : Instant} : g.isFresh now = true ↔
    g.token ≠ [] ∧ Clock.wrap (now + g.credentials.refreshSkew * 1000000000) < g.expiry := by
  rw [Grant.isFresh, Clock.after_seconds]
  simp

/-! ## What becomes of the token -/

/-- A grant after a turn at an instant, in which the outcome of a token request came or none
did. -/
structure Updates (now : Instant) (g : Grant) (outcome? : Option Outcome) (g' : Grant) : Prop where
  credentials : g'.credentials = g.credentials
  kept : (∀ issued, outcome? ≠ some (.ok issued)) → g'.token = g.token ∧ g'.expiry = g.expiry
  replaced : ∀ {issued}, outcome? = some (.ok issued) →
    g'.token = issued.token ∧ g'.expiry = Clock.after now (Clock.seconds issued.lifetime)

theorem Updates.same (now : Instant) (hcredentials : g'.credentials = g.credentials)
    (htoken : g'.token = g.token) (hexpiry : g'.expiry = g.expiry) : Updates now g none g' :=
  ⟨hcredentials, fun _ => ⟨htoken, hexpiry⟩, nofun⟩

theorem Updates.publish {now : Instant} (h : Updates now g none g') (outcome : Outcome) :
    Updates now g (some outcome) (g'.publish now outcome) := by
  refine ⟨by rw [Grant.publish_credentials, h.credentials], ?_, ?_⟩
  · intro hnone
    cases outcome with
    | error failure => exact h.kept nofun
    | ok issued => exact absurd rfl (hnone issued)
  · rintro issued ⟨⟩
    exact ⟨rfl, rfl⟩

/-- What a turn of a caller leaves of the token; it takes no time. -/
theorem Turn.updates (hbase : base.KeepsApart) (hg : w.grants[place]? = some g)
    {before : Option (Phase base.Phase)} {exchange? : Option Exchange} {reply? : Option Reply}
    {stretch : Stretch (Phase base.Phase) Result}
    (h : Turn base place caller w g before exchange? reply? stretch) :
    ∃ g', stretch.2.grants[place]? = some g' ∧ stretch.2.now = w.now ∧
      Updates w.now g (reply?.map IssuedToken.ofReply) g' := by
  have hpublish {g₁ : Grant} {w₁ : World} (hg₁ : w₁.grants[place]? = some g₁)
      (hnow : w₁.now = w.now) (hsame : Updates w.now g none g₁) (reply : Reply) :
      ∃ g', (finish place reply w₁ : Stretch (Phase base.Phase) Result).2.grants[place]? =
          some g' ∧ (finish place reply w₁ : Stretch (Phase base.Phase) Result).2.now = w.now ∧
        Updates w.now g (some (IssuedToken.ofReply reply)) g' := by
    simp only [finish]
    rw [publish_eq hg₁]
    exact ⟨_, getElem?_setGrant hg₁, hnow, hnow ▸ hsame.publish _⟩
  cases h with
  | serves => exact ⟨g, hg, rfl, .same _ rfl rfl rfl⟩
  | sees => exact ⟨g, hg, rfl, .same _ rfl rfl rfl⟩
  | asks _ hstart =>
      obtain ⟨hg', houtward⟩ := start_leaves hbase hg hstart
      exact ⟨_, hg', houtward.now, .same _ rfl rfl rfl⟩
  | exchanges _ hstart =>
      obtain ⟨hg', houtward⟩ := start_leaves hbase hg hstart
      exact hpublish hg' houtward.now (.same _ rfl rfl rfl) _
  | continues hresume =>
      obtain ⟨hg', houtward⟩ := resume_leaves hbase hg hresume
      exact ⟨g, hg', houtward.now, .same _ rfl rfl rfl⟩
  | receives hresume =>
      obtain ⟨hg', houtward⟩ := resume_leaves hbase hg hresume
      exact hpublish hg' houtward.now (.same _ rfl rfl rfl) _
  | joins => exact ⟨_, getElem?_setGrant hg, rfl, .same _ rfl rfl rfl⟩
  | late => exact ⟨g, hg, rfl, .same _ rfl rfl rfl⟩
  | hears => exact ⟨g, hg, rfl, .same _ rfl rfl rfl⟩
  | leaves => exact ⟨_, getElem?_setGrant hg, rfl, .same _ rfl rfl rfl⟩
  | ends => exact ⟨g, hg, rfl, .same _ rfl rfl rfl⟩

end

/-! ## Steps -/

section

variable {base : Transport} {place : Nat} {callers : List (Instant × Caller)} {g g' : Grant}
  {t t' t'' : Timeline (Phase base.Phase) Result} {label : Option Ticket}

/-- What a step leaves of the token, and the reply that comes in it. -/
structure Passes (base : Transport) (place : Nat) (callers : List (Instant × Caller))
    (label : Option Ticket) (t t' : Timeline (Phase base.Phase) Result) (g : Grant)
    (reply? : Option Reply) (g' : Grant) : Prop where
  peopled : Peopled base place callers g' t'
  answers : ∀ reply, Answers base place callers label t reply ↔ reply? = some reply
  later : t.world.now ≤ t'.world.now
  updates : Updates t.world.now g (reply?.map IssuedToken.ofReply) g'

/-- Every step comes to this. -/
theorem passes_of_next (hbase : base.KeepsApart) (h : Peopled base place callers g t)
    (hnext : Next label t t') : ∃ reply? g', Passes base place callers label t t' g reply? g' := by
  obtain ⟨exchange?, reply?, hcourse, -, hanswers⟩ := h.course hnext
  refine ⟨reply?, ?_⟩
  cases hcourse with
  | idles hidles => exact ⟨g, h.idles hidles, hanswers, hidles.now, .same _ rfl rfl rfl⟩
  | works hentry hslot htakes hturn =>
      obtain ⟨g', hg', hnow, hupdates⟩ := hturn.updates hbase h.grant
      exact ⟨g', h.turned hg', hanswers, Int.le_of_eq hnow.symm, hupdates⟩

/-- While no token comes, the grant keeps the one it has and its expiry. -/
theorem Chronicle.keeps (hbase : base.KeepsApart) {handed : List Exchange} {history : List Outcome}
    (hpeopled : Peopled base place callers g t)
    (h : Chronicle base place callers t handed history t')
    (hnone : ∀ issued, .ok issued ∉ history) :
    t.world.now ≤ t'.world.now ∧ ∃ g', Peopled base place callers g' t' ∧
      g'.credentials = g.credentials ∧ g'.token = g.token ∧ g'.expiry = g.expiry := by
  induction h with
  | refl => exact ⟨Int.le_refl _, g, hpeopled, rfl, rfl, rfl⟩
  | step _ hnext _ hanswers ih =>
      obtain ⟨hlater, g₁, hpeopled₁, hcredentials, htoken, hexpiry⟩ :=
        ih fun issued hissued => hnone issued (List.mem_append_left _ hissued)
      obtain ⟨reply?, g₂, hpasses⟩ := passes_of_next hbase hpeopled₁ hnext
      obtain rfl := Option.ext fun reply => (hpasses.answers reply).symm.trans (hanswers reply)
      obtain ⟨htoken', hexpiry'⟩ := hpasses.updates.kept fun issued hissued =>
        hnone issued (List.mem_append_right _ (Option.mem_toList.mpr hissued))
      exact ⟨Int.le_trans hlater hpasses.later, g₂, hpasses.peopled,
        hpasses.updates.credentials.trans hcredentials, htoken'.trans htoken,
        hexpiry'.trans hexpiry⟩

/-! ## Since an answer -/

/-- A response issues a token; `lifetime` is what it says about how long that may be used, if it
says anything. -/
structure Issues (response : Response) (lifetime : Option Json) : Prop where
  status : response.status = 200
  members : ∃ (members : Json.Members) (token : Bytes),
    Json.parse response.body = .ok (.object members) ∧
    members.get? (utf8 "access_token") = some (.text token) ∧ token ≠ [] ∧
    members.get? (utf8 "expires_in") = lifetime

/-- A response was received in a step from one timeline on, and up to another no token has come
since. -/
def Since (base : Transport) (place : Nat) (callers : List (Instant × Caller))
    (response : Response) (t t' : Timeline (Phase base.Phase) Result) : Prop :=
  ∃ label first handed history, Next label t first ∧
    Answers base place callers label t (.ok response) ∧
    Chronicle base place callers first handed history t' ∧ ∀ issued, .ok issued ∉ history

theorem Issues.ofReply {response : Response} {lifetime : Option Json}
    (h : Issues response lifetime) :
    ∃ token, token ≠ [] ∧
      IssuedToken.ofReply (.ok response) = .ok ⟨token, IssuedToken.lifetimeOf lifetime⟩ := by
  obtain ⟨members, token, hparse, htoken, hne, rfl⟩ := h.members
  refine ⟨token, hne, ?_⟩
  simp [IssuedToken.ofReply, IssuedToken.ofResponse, h.status, hparse, IssuedToken.ofMembers,
    htoken, hne]

/-- The token that `lifetime` belongs to was received in a step from `t` on, by the grant that
was `g` before, and up to `t'` no other has come. -/
structure Holds (base : Transport) (place : Nat) (callers : List (Instant × Caller)) (g : Grant)
    (lifetime : Option Json) (t t' : Timeline (Phase base.Phase) Result) : Prop where
  jobs : t.jobs = crowd base place callers
  grant : t.world.grants[place]? = some g
  received : ∃ response, Issues response lifetime ∧ Since base place callers response t t'

section

variable {lifetime : Option Json}

theorem Holds.kept (hbase : base.KeepsApart) (h : Holds base place callers g lifetime t t') :
    t.world.now ≤ t'.world.now ∧ ∃ g', t'.world.grants[place]? = some g' ∧
      g'.credentials = g.credentials ∧ g'.token ≠ [] ∧
      g'.expiry = Clock.wrap (t.world.now + IssuedToken.lifetimeOf lifetime * 1000000000) := by
  obtain ⟨response, hissues, label, first, handed, history, hnext, hanswer, hchronicle, hnone⟩ :=
    h.received
  obtain ⟨reply?, g₁, hpasses⟩ := passes_of_next hbase ⟨h.jobs, h.grant⟩ hnext
  obtain rfl := (hpasses.answers _).mp hanswer
  obtain ⟨token, hne, hissued⟩ := hissues.ofReply
  obtain ⟨htoken, hexpiry⟩ := hpasses.updates.replaced (congrArg some hissued)
  obtain ⟨hlater, g₂, hpeopled₂, hcredentials, htoken', hexpiry'⟩ :=
    hchronicle.keeps hbase hpasses.peopled hnone
  refine ⟨Int.le_trans hpasses.later hlater, g₂, hpeopled₂.grant,
    hcredentials.trans hpasses.updates.credentials, ?_, ?_⟩
  · rw [htoken', htoken]
    exact hne
  · rw [hexpiry', hexpiry, Clock.after_seconds]

/-- Callers are served from the cache as long as the register that holds the present instant and
the skew is below the one that holds the expiry. -/
theorem Holds.served_iff (hbase : base.KeepsApart)
    (h : Holds base place callers g lifetime t t') (caller : Caller) :
    ServedFromCache base place caller t'.world ↔
      Clock.wrap (t'.world.now + g.credentials.refreshSkew * 1000000000) <
        Clock.wrap (t.world.now + IssuedToken.lifetimeOf lifetime * 1000000000) := by
  obtain ⟨-, g', hg', hcredentials, htoken, hexpiry⟩ := h.kept hbase
  rw [servedFromCache_iff hbase hg', isFresh_iff, hcredentials, hexpiry]
  exact and_iff_right htoken

end

/-- In exact arithmetic a token is served before it expires only, whatever the register made of
its expiry. -/
theorem Holds.served_before {lifetime : Option Json} (hbase : base.KeepsApart)
    (h : Holds base place callers g lifetime t t') (hpos : 0 ≤ IssuedToken.lifetimeOf lifetime)
    (hlow : Clock.bottom ≤ t.world.now)
    (hfits : Clock.fits (t'.world.now + g.credentials.refreshSkew * 1000000000) = true)
    {caller : Caller} (hserved : ServedFromCache base place caller t'.world) :
    t'.world.now + g.credentials.refreshSkew * 1000000000 <
      t.world.now + IssuedToken.lifetimeOf lifetime * 1000000000 := by
  have hless := (h.served_iff hbase caller).mp hserved
  rw [Clock.wrap_eq_of_fits hfits] at hless
  exact Int.lt_of_lt_of_le hless (Clock.wrap_le (Clock.bottom_le_add hlow hpos))

/-! ## No longer than the lifetime -/

/-- **A token is served no longer than its lifetime.**  Callers are served from the cache only
while the present instant and the skew come before the instant of the answer and its lifetime, in
exact arithmetic: that is so for the seconds that the answer names when they are positive, and for
an hour when it names none, or no positive number of them. -/
theorem served_within_lifetime {lifetime : Option Json} (hbase : base.KeepsApart)
    (h : Holds base place callers g lifetime t t') (hlow : Clock.bottom ≤ t.world.now)
    (hfits : Clock.fits (t'.world.now + g.credentials.refreshSkew * 1000000000) = true)
    {caller : Caller} (hserved : ServedFromCache base place caller t'.world) :
    (∀ seconds, lifetime = some (.int seconds) → 0 < seconds →
      t'.world.now + g.credentials.refreshSkew * 1000000000 <
        t.world.now + seconds * 1000000000) ∧
    (lifetime = none ∨ lifetime = some .null ∨ (∃ seconds, lifetime = some (.int seconds) ∧
        seconds ≤ 0) →
      t'.world.now + g.credentials.refreshSkew * 1000000000 <
        t.world.now + 3600 * 1000000000) := by
  have hbefore {seconds : Int} (heq : IssuedToken.lifetimeOf lifetime = seconds)
      (hpos : 0 < seconds) :
      t'.world.now + g.credentials.refreshSkew * 1000000000 <
        t.world.now + seconds * 1000000000 :=
    heq ▸ h.served_before hbase (heq ▸ Int.le_of_lt hpos) hlow hfits hserved
  constructor
  · rintro seconds rfl hpos
    exact hbefore (by simp [IssuedToken.lifetimeOf, hpos]) hpos
  · rintro (rfl | rfl | ⟨seconds, rfl, hneg⟩)
    · exact hbefore rfl (by decide)
    · exact hbefore rfl (by decide)
    · refine hbefore ?_ (by decide)
      simp [IssuedToken.lifetimeOf, Int.not_lt.mpr hneg, IssuedToken.defaultLifetime]

/-! ## No shorter than the lifetime -/

/-- **A token is served for as long as its lifetime says**, when the register can hold its expiry:
no request is made for a caller that comes while the present instant and the skew come before the
instant of the answer and its lifetime, in exact arithmetic.  And a longer lifetime is never the
sooner over: at an instant at which the token is served, so is one that was received at the same
instant with a longer lifetime. -/
theorem reused_while_valid {seconds : Int} (hbase : base.KeepsApart)
    (h : Holds base place callers g (some (.int seconds)) t t') (hpos : 0 < seconds)
    (hskew : 0 ≤ g.credentials.refreshSkew) (hlow : Clock.bottom ≤ t.world.now)
    (hhigh : t.world.now + seconds * 1000000000 ≤ Clock.top) (caller : Caller) :
    (t'.world.now + g.credentials.refreshSkew * 1000000000 <
        t.world.now + seconds * 1000000000 →
      ServedFromCache base place caller t'.world) ∧
    ∀ {other : Transport} {place₂ : Nat} {callers₂ : List (Instant × Caller)} {g₂ : Grant}
      {more : Int} {u u' : Timeline (Phase other.Phase) Result}, other.KeepsApart →
      Holds other place₂ callers₂ g₂ (some (.int more)) u u' → seconds ≤ more →
      u.world.now + more * 1000000000 ≤ Clock.top → u.world.now = t.world.now →
      u'.world.now = t'.world.now → g₂.credentials.refreshSkew = g.credentials.refreshSkew →
      ServedFromCache base place caller t'.world →
      ServedFromCache other place₂ caller u'.world := by
  have hexact {start : Instant} {seconds : Int} (hpos : 0 < seconds)
      (hlow : Clock.bottom ≤ start) (hhigh : start + seconds * 1000000000 ≤ Clock.top) :
      Clock.wrap (start + IssuedToken.lifetimeOf (some (.int seconds)) * 1000000000) =
        start + seconds * 1000000000 := by
    rw [show IssuedToken.lifetimeOf (some (.int seconds)) = seconds by
      simp [IssuedToken.lifetimeOf, hpos]]
    exact Clock.wrap_of_le (Clock.bottom_le_add hlow (Int.le_of_lt hpos)) hhigh
  have hserved := h.served_iff hbase caller
  rw [hexact hpos hlow hhigh] at hserved
  constructor
  · intro hvalid
    have hlater : Clock.bottom ≤ t'.world.now := Int.le_trans hlow (h.kept hbase).1
    rw [hserved, Clock.wrap_of_le (Clock.bottom_le_add hlater hskew)
      (Int.le_trans (Int.le_of_lt hvalid) hhigh)]
    exact hvalid
  · intro other place₂ callers₂ g₂ more u u' hother hu hmore htop hstart hnow hsame hcached
    rw [hu.served_iff hother, hexact (Int.lt_of_lt_of_le hpos hmore) (hstart ▸ hlow) htop,
      hstart, hnow, hsame]
    refine Int.lt_of_lt_of_le (hserved.mp hcached) (Int.add_le_add_left ?_ _)
    exact Int.mul_le_mul_of_nonneg_right hmore (by decide)

end

/-! A peer that issues a token at once, in a body of its own, and what has become of the token at a
later instant. -/

def promptPeer (body : Bytes) : Peer := fun _ _ => .ok { reply := .ok { body } }

/-- One caller of a new grant, which gives its tokens up ten seconds before their end. -/
def promptStart (body : Bytes) : Timeline (Phase (wire (promptPeer body)).Phase) Result :=
  ofJobs { grants := [{ credentials := { tokenUrl := {} } }] }
    (crowd (wire (promptPeer body)) 0 [(0, {})])

/-- The caller has had its turn, and time has passed to an instant since. -/
def promptSince (body : Bytes) (instant : Instant) :
    Timeline (Phase (wire (promptPeer body)).Phase) Result :=
  (((promptStart body).leaveLine 0).takeTurn 0).passTo instant

theorem promptPeer_holds {body : Bytes} {lifetime : Option Json} (h : Issues { body } lifetime)
    (instant : Instant) :
    Holds (wire (promptPeer body)) 0 [(0, {})] { credentials := { tokenUrl := {} } } lifetime
      (promptStart body) (promptSince body instant) := by
  have hidle (exchange : Exchange) : ¬ Hands 0 [(0, {})] none
      (((promptStart body).leaveLine 0).takeTurn 0) exchange := by
    rintro ⟨i, -, -, -, hi, -⟩
    cases hi
  have hsilent (reply : Reply) : ¬ Answers (wire (promptPeer body)) 0 [(0, {})] none
      (((promptStart body).leaveLine 0).takeTurn 0) reply := by
    rintro ⟨i, -, -, -, hi, -⟩
    cases hi
  refine ⟨rfl, rfl, { body }, h, some 0, ((promptStart body).leaveLine 0).takeTurn 0, [], [],
    .turn List.mem_cons_self, ⟨0, _, _, none, rfl, rfl, rfl, .beginning (Int.le_refl _),
      .atOnce ⟨trivial, rfl, rfl⟩ rfl⟩, ?_, nofun⟩
  exact @Chronicle.step _ _ _ _ _ _ _ _ _ none none .refl (.passage _ instant)
    (fun exchange => ⟨fun h => absurd h (hidle exchange), nofun⟩)
    fun reply => ⟨fun h => absurd h (hsilent reply), nofun⟩

theorem promptSince_now (body : Bytes) {instant : Instant} (h : 0 ≤ instant) :
    (promptSince body instant).world.now = instant :=
  Int.max_eq_right h

theorem promptSince_served_iff {body : Bytes} {lifetime : Option Json}
    (h : Issues { body } lifetime) {instant : Instant} (hlater : 0 ≤ instant) (caller : Caller) :
    ServedFromCache (wire (promptPeer body)) 0 caller (promptSince body instant).world ↔
      Clock.wrap (instant + 10 * 1000000000) <
        Clock.wrap (IssuedToken.lifetimeOf lifetime * 1000000000) := by
  have hserved := (promptPeer_holds h instant).served_iff (wire_keepsApart _) caller
  rw [promptSince_now body hlater, show (promptStart body).world.now = 0 from rfl,
    Int.zero_add] at hserved
  exact hserved

def hourLong : Bytes := utf8 "\x7b\"access_token\":\"T\",\"expires_in\":3600\x7d"

theorem hourLong_issues : Issues { body := hourLong } (some (.int 3600)) :=
  ⟨rfl, _, utf8 "T", rfl, rfl, by decide, rfl⟩

/-- Eleven seconds before its end the token is still served. -/
theorem hour_served :
    ServedFromCache (wire (promptPeer hourLong)) 0 {} (promptSince hourLong 3589000000000).world ∧
      (promptSince hourLong 3589000000000).world.now + 10 * 1000000000 <
        (promptStart hourLong).world.now + 3600 * 1000000000 := by
  have hserved : ServedFromCache (wire (promptPeer hourLong)) 0 {}
      (promptSince hourLong 3589000000000).world :=
    (promptSince_served_iff hourLong_issues (by decide) _).mpr (by decide)
  have hfits : Clock.fits ((promptSince hourLong 3589000000000).world.now + 10 * 1000000000) =
      true := by
    rw [promptSince_now hourLong (by decide)]
    decide
  refine ⟨hserved, ?_⟩
  exact (served_within_lifetime (wire_keepsApart _)
    (promptPeer_holds hourLong_issues 3589000000000) (by decide) hfits hserved).1 3600 rfl
      (by decide)

/-- An answer with a token that can be used for two hours. -/
def twoHoursLong : Bytes := utf8 "\x7b\"access_token\":\"T\",\"expires_in\":7200\x7d"

theorem twoHoursLong_issues : Issues { body := twoHoursLong } (some (.int 7200)) :=
  ⟨rfl, _, utf8 "T", rfl, rfl, by decide, rfl⟩

/-- Eleven seconds before the end of the token for an hour no request is made, nor is one for the
token for two. -/
theorem hour_reused :
    ServedFromCache (wire (promptPeer hourLong)) 0 {} (promptSince hourLong 3589000000000).world ∧
      ServedFromCache (wire (promptPeer twoHoursLong)) 0 {}
        (promptSince twoHoursLong 3589000000000).world := by
  have hnow (body : Bytes) : (promptSince body 3589000000000).world.now = 3589000000000 :=
    promptSince_now body (by decide)
  obtain ⟨hserved, hlonger⟩ := reused_while_valid (wire_keepsApart _)
    (promptPeer_holds hourLong_issues 3589000000000) (by decide) (by decide) (by decide)
    (by decide) {}
  have hserved := hserved (by rw [hnow]; decide)
  exact ⟨hserved, hlonger (wire_keepsApart _) (promptPeer_holds twoHoursLong_issues 3589000000000)
    (by decide) (by decide) rfl ((hnow _).trans (hnow _).symm) rfl hserved⟩

def notAtAll : Bytes := utf8 "\x7b\"access_token\":\"T\",\"expires_in\":0\x7d"

/-- A token without any lifetime is served a second after it came. -/
theorem zero_lifetime_served :
    Holds (wire (promptPeer notAtAll)) 0 [(0, {})] { credentials := { tokenUrl := {} } }
        (some (.int 0)) (promptStart notAtAll) (promptSince notAtAll 1000000000) ∧
      ServedFromCache (wire (promptPeer notAtAll)) 0 {} (promptSince notAtAll 1000000000).world ∧
      ¬ (promptSince notAtAll 1000000000).world.now + 10 * 1000000000 <
        (promptStart notAtAll).world.now + 0 * 1000000000 := by
  have hissues : Issues { body := notAtAll } (some (.int 0)) :=
    ⟨rfl, _, utf8 "T", rfl, rfl, by decide, rfl⟩
  refine ⟨promptPeer_holds hissues _, ?_, ?_⟩
  · exact (promptSince_served_iff hissues (by decide) _).mpr (by decide)
  · rw [promptSince_now notAtAll (by decide)]
    decide

/-- An answer with a token that can be used for some three hundred years. -/
def centuriesLong : Bytes := utf8 "\x7b\"access_token\":\"T\",\"expires_in\":9223372037\x7d"

/-- A token with a lifetime beyond the register is stale at once. -/
theorem long_lifetime_lost :
    Holds (wire (promptPeer centuriesLong)) 0 [(0, {})] { credentials := { tokenUrl := {} } }
        (some (.int 9223372037)) (promptStart centuriesLong) (promptSince centuriesLong 0) ∧
      (promptSince centuriesLong 0).world.now + 10 * 1000000000 <
        (promptStart centuriesLong).world.now + 9223372037 * 1000000000 ∧
      ¬ ServedFromCache (wire (promptPeer centuriesLong)) 0 {}
        (promptSince centuriesLong 0).world := by
  have hissues : Issues { body := centuriesLong } (some (.int 9223372037)) :=
    ⟨rfl, _, utf8 "T", rfl, rfl, by decide, rfl⟩
  refine ⟨promptPeer_holds hissues _, ?_, ?_⟩
  · rw [promptSince_now centuriesLong (by decide)]
    decide
  · rw [promptSince_served_iff hissues (by decide)]
    decide

end Acquire

end BearerAuth
