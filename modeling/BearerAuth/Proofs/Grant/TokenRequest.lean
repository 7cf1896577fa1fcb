import BearerAuth.Introspection.Authenticator
import BearerAuth.Proofs.Form.Encoded
import BearerAuth.Proofs.Grant.Ledger

/-!
# What a token request presents

A token request presents the members of a client that are not empty, and asks
for its scopes in one field (`Presents`).  The scopes are joined by single
spaces, but those that are empty and in front of all others are lost
(`scopeText_eq`), so the field gives back the list of a client exactly when no
empty scope stands in front of another one (`scopeText_eq_join_iff`).  An
inquiry asks for all of its scopes (`scopeField_inquiry`).

`Posts` says which token requests have been sent since a state, and that each
is a fetch begun.  A caller sends one in the turn in which it comes to fetch,
and none in any other turn (`Turn.posts`); so after any number of steps as many
have been sent as fetches were begun (`posts_of_reaches`).
-/

namespace BearerAuth

open Transport Timeline

namespace Credentials

/-! ## Scopes -/

/-- An empty scope stands in front of another one. -/
def EmptyInFront (scopes : List Bytes) : Prop := ∃ next rest, scopes = [] :: next :: rest

theorem foldl_scopes {text : Bytes} (h : text ≠ []) (scopes : List Bytes) :
    scopes.foldl (fun text scope =>
        if text.isEmpty then scope else text ++ Ascii.space :: scope) text =
      Bytes.join Ascii.space (text :: scopes) := by
  induction scopes generalizing text with
  | nil => rfl
  | cons scope scopes ih =>
      have hnot : ¬ text.isEmpty = true := by simpa using h
      have hmore : text ++ Ascii.space :: scope ≠ [] := by simp
      rw [List.foldl_cons, if_neg hnot, ih hmore]
      cases scopes with
      | nil => rfl
      | cons next rest => simp only [Bytes.join, List.append_assoc, List.cons_append]

theorem scopeText_cons {scope : Bytes} (h : scope ≠ []) (scopes : List Bytes) :
    scopeText (scope :: scopes) = Bytes.join Ascii.space (scope :: scopes) := foldl_scopes h scopes

theorem scopeText_nil_cons (scopes : List Bytes) :
    scopeText ([] :: scopes) = scopeText scopes := rfl

theorem scopeText_eq (scopes : List Bytes) :
    scopeText scopes = Bytes.join Ascii.space (scopes.dropWhile List.isEmpty) := by
  induction scopes with
  | nil => rfl
  | cons scope scopes ih =>
      cases scope with
      | nil => exact ih
      | cons b scope => exact scopeText_cons (List.cons_ne_nil b scope) scopes

theorem length_join_cons (next : Bytes) (rest : List Bytes) :
    (Bytes.join Ascii.space ([] :: next :: rest)).length =
      (Bytes.join Ascii.space (next :: rest)).length + 1 := rfl

/-- Nothing but empty scopes in front is lost. -/
theorem length_scopeText_le (scopes : List Bytes) :
    (scopeText scopes).length ≤ (Bytes.join Ascii.space scopes).length := by
  induction scopes with
  | nil => exact Nat.le_refl _
  | cons scope scopes ih =>
      cases scope with
      | cons b scope =>
          have heq := scopeText_cons (List.cons_ne_nil b scope) scopes
          exact Nat.le_of_eq (congrArg List.length heq)
      | nil =>
          cases scopes with
          | nil => exact Nat.le_refl _
          | cons next rest =>
              rw [scopeText_nil_cons, length_join_cons]
              exact Nat.le_succ_of_le ih

/-- The scopes are joined exactly when no empty one stands in front of another. -/
theorem scopeText_eq_join_iff (scopes : List Bytes) :
    scopeText scopes = Bytes.join Ascii.space scopes ↔ ¬ EmptyInFront scopes := by
  constructor
  · rintro heq ⟨next, rest, rfl⟩
    have hle := length_scopeText_le (next :: rest)
    rw [← scopeText_nil_cons, heq, length_join_cons] at hle
    exact absurd hle (Nat.not_succ_le_self _)
  · intro hfront
    cases scopes with
    | nil => rfl
    | cons scope scopes =>
        cases scope with
        | cons b scope => exact scopeText_cons (List.cons_ne_nil b scope) scopes
        | nil =>
            cases scopes with
            | nil => rfl
            | cons next rest => exact absurd ⟨next, rest, rfl⟩ hfront

/-! ## The form -/

/-- The fields that present a client, with a text for its scopes when it has any. -/
def grantFields (credentials : Credentials) (scope : Bytes) : Form.Fields :=
  (utf8 "grant_type", utf8 "client_credentials") ::
    ([(utf8 "client_id", credentials.clientId),
      (utf8 "client_secret", credentials.clientSecret)].filter fun field => field.2 ≠ []) ++
    if credentials.scopes = [] then [] else [(utf8 "scope", scope)]

theorem fields_eq (credentials : Credentials) :
    credentials.fields = credentials.grantFields (scopeText credentials.scopes) := by
  have hmember (name value : Bytes) :
      (if value.isEmpty then [] else [(name, value)]) =
        [(name, value)].filter fun field => field.2 ≠ [] := by
    cases value with
    | nil => rfl
    | cons b value => rfl
  have hscopes : (if credentials.scopes.isEmpty then [] else
        [(utf8 "scope", scopeText credentials.scopes)]) =
      if credentials.scopes = [] then [] else [(utf8 "scope", scopeText credentials.scopes)] := by
    cases credentials.scopes with
    | nil => rfl
    | cons scope scopes => rfl
  rw [fields, grantFields, hmember, hmember, hscopes, List.append_assoc [_], ← List.filter_append]
  rfl

theorem lookup_grantFields {credentials : Credentials} (h : credentials.scopes ≠ [])
    (scope : Bytes) : (credentials.grantFields scope).lookup (utf8 "scope") = some scope := by
  rw [grantFields, if_neg h, List.lookup_append]
  have hnone : ((utf8 "grant_type", utf8 "client_credentials") ::
      ([(utf8 "client_id", credentials.clientId),
        (utf8 "client_secret", credentials.clientSecret)].filter fun field =>
          field.2 ≠ [])).lookup (utf8 "scope") = none := by
    rw [List.lookup_eq_none_iff]
    intro field hfield
    rcases List.mem_cons.mp hfield with rfl | hfield
    · decide
    · have hmember := (List.mem_filter.mp hfield).1
      simp only [List.mem_cons, List.not_mem_nil, or_false] at hmember
      rcases hmember with rfl | rfl
      · exact (by decide : (utf8 "scope" != utf8 "client_id") = true)
      · exact (by decide : (utf8 "scope" != utf8 "client_secret") = true)
  rw [hnone]
  rfl

/-- An exchange presents credentials and asks for scopes: it posts the form of the client to the
target of its token endpoint. -/
structure Presents (credentials : Credentials) (scopes : List Bytes) (exchange : Exchange) :
    Prop where
  url : exchange.url = credentials.tokenUrl
  method : exchange.request.method = utf8 "POST"
  target : exchange.request.target = credentials.tokenUrl.target
  body : Form.fields? exchange.request.body =
    some (credentials.grantFields (Bytes.join Ascii.space scopes))

def scopeField (request : Request) : Option Bytes :=
  (Form.fields? request.body).bind fun fields => fields.lookup (utf8 "scope")

section

variable {credentials : Credentials} {scopes : List Bytes} {exchange : Exchange}

theorem request_presents (credentials : Credentials) (instant : Instant) :
    credentials.Presents (credentials.scopes.dropWhile List.isEmpty)
      ⟨instant, credentials.tokenUrl, credentials.request⟩ where
  url := rfl
  method := rfl
  target := rfl
  body := by
    have hne : credentials.fields ≠ [] := by simp [fields]
    show Form.fields? (Form.encodeFields credentials.fields) = _
    rw [Form.fields?_encodeFields hne, fields_eq, scopeText_eq]

theorem Presents.scopeField_eq (h : credentials.Presents scopes exchange)
    (hne : credentials.scopes ≠ []) :
    scopeField exchange.request = some (Bytes.join Ascii.space scopes) := by
  rw [scopeField, h.body]
  exact lookup_grantFields hne _

/-- The text for the scopes is that of all of them exactly when no empty one stands in front of
another. -/
theorem Presents.scopeField_iff
    (h : credentials.Presents (credentials.scopes.dropWhile List.isEmpty) exchange)
    (hne : credentials.scopes ≠ []) :
    scopeField exchange.request = some (Bytes.join Ascii.space credentials.scopes) ↔
      ¬ EmptyInFront credentials.scopes := by
  rw [h.scopeField_eq hne, ← scopeText_eq, Option.some.injEq]
  exact scopeText_eq_join_iff _

/-- All scopes are asked for exactly when no empty one stands in front of another. -/
theorem Presents.all_iff
    (h : credentials.Presents (credentials.scopes.dropWhile List.isEmpty) exchange) :
    credentials.Presents credentials.scopes exchange ↔ ¬ EmptyInFront credentials.scopes := by
  constructor
  · rintro hall ⟨next, rest, hscopes⟩
    have hne : credentials.scopes ≠ [] := hscopes ▸ List.cons_ne_nil _ _
    exact (h.scopeField_iff hne).mp (hall.scopeField_eq hne) ⟨next, rest, hscopes⟩
  · intro hfront
    have heq := (scopeText_eq_join_iff _).mpr hfront
    rw [scopeText_eq] at heq
    exact ⟨h.url, h.method, h.target, heq ▸ h.body⟩

/-- A text gives back scopes without spaces, when it is split at the spaces, exactly when they
are joined in it. -/
theorem split_eq_some_iff {text? : Option Bytes} (hne : scopes ≠ [])
    (hspace : ∀ scope ∈ scopes, Ascii.space ∉ scope) :
    text?.map (Bytes.split Ascii.space) = some scopes ↔
      text? = some (Bytes.join Ascii.space scopes) := by
  rw [Option.map_eq_some_iff]
  constructor
  · rintro ⟨text, rfl, hsplit⟩
    rw [(Bytes.split_eq_iff.mp hsplit).2.2]
  · rintro rfl
    exact ⟨_, rfl, Bytes.split_join hne hspace⟩

end

theorem scopeField_inquiry {policy : Settings.Policy} (h : policy.scopeStrategy = .none)
    (token : Bytes) : scopeField (Introspection.inquiryRequest policy token) =
      some (Bytes.join Ascii.space policy.requiredScopes) := by
  have hne : Introspection.form policy token ≠ [] := List.cons_ne_nil _ _
  rw [scopeField, Introspection.inquiryRequest, Form.fields?_encodeFields hne,
    Introspection.form, h]
  rfl

end Credentials

/-! ## Turns -/

namespace Acquire

open Credentials

/-- The token requests that have been sent between two worlds: each is a fetch begun. -/
structure Posts (place : Nat) (g : Grant) (w w' : World) (requests : List Exchange) : Prop where
  grant : ∃ g', w'.grants[place]? = some g' ∧ g'.credentials = g.credentials ∧
    g'.begun = g.begun + requests.length
  sent : w'.sent = w.sent ++ requests
  presents : ∀ exchange ∈ requests,
    g.credentials.Presents (g.credentials.scopes.dropWhile List.isEmpty) exchange

section

variable {base : Transport} {place : Nat} {caller : Caller} {w w' w'' : World} {g g' : Grant}
  {requests more : List Exchange} {before : Option (Phase base.Phase)}
  {exchange? : Option Exchange} {reply? : Option Reply}
  {stretch : Stretch (Phase base.Phase) Result}

theorem Posts.nothing (hg : w'.grants[place]? = some g')
    (hcredentials : g'.credentials = g.credentials) (hbegun : g'.begun = g.begun)
    (hsent : w'.sent = w.sent) : Posts place g w w' [] where
  grant := ⟨g', hg, hcredentials, hbegun⟩
  sent := hsent.trans (List.append_nil _).symm
  presents := nofun

theorem Posts.refl (hg : w.grants[place]? = some g) : Posts place g w w [] :=
  .nothing hg rfl rfl rfl

theorem Posts.congr (h : Posts place g w w' requests) (hgrants : w''.grants = w'.grants)
    (hsent : w''.sent = w'.sent) : Posts place g w w'' requests where
  grant := hgrants ▸ h.grant
  sent := hsent.trans h.sent
  presents := h.presents

theorem Posts.trans (h : Posts place g w w' requests) (hg' : w'.grants[place]? = some g')
    (h' : Posts place g' w' w'' more) : Posts place g w w'' (requests ++ more) := by
  obtain ⟨g₁, hg₁, hcredentials, hbegun⟩ := h.grant
  obtain rfl := Option.some.inj (hg'.symm.trans hg₁)
  obtain ⟨⟨g'', hg'', hcredentials', hbegun'⟩, hsent', hpresents'⟩ := h'
  refine ⟨⟨g'', hg'', hcredentials'.trans hcredentials, ?_⟩, ?_, ?_⟩
  · rw [hbegun', hbegun, List.length_append, Nat.add_assoc]
  · rw [hsent', h.sent, List.append_assoc]
  · intro exchange hexchange
    rcases List.mem_append.mp hexchange with hmem | hmem
    · exact h.presents exchange hmem
    · exact hcredentials ▸ hpresents' exchange hmem

theorem Turn.begun (hbase : base.KeepsApart) (hg : w.grants[place]? = some g)
    (h : Turn base place caller w g before exchange? reply? stretch) :
    ∃ g', stretch.2.grants[place]? = some g' ∧ g'.credentials = g.credentials ∧
      g'.begun = g.begun + exchange?.toList.length := by
  have hfinish {g₁ : Grant} {w₁ : World} (hg₁ : w₁.grants[place]? = some g₁) (reply : Reply) :
      ∃ g', (finish place reply w₁ : Stretch (Phase base.Phase) Result).2.grants[place]? =
        some g' ∧ g'.credentials = g₁.credentials ∧ g'.begun = g₁.begun :=
    ⟨_, getElem?_publish hg₁ _, g₁.publish_credentials _ _, g₁.publish_begun _ _⟩
  cases h with
  | serves => exact ⟨g, hg, rfl, rfl⟩
  | sees => exact ⟨g, hg, rfl, rfl⟩
  | asks _ hstart => exact ⟨_, (start_leaves hbase hg hstart).1, rfl, rfl⟩
  | exchanges _ hstart => exact hfinish (start_leaves hbase hg hstart).1 _
  | continues hresume => exact ⟨g, (resume_leaves hbase hg hresume).1, rfl, rfl⟩
  | receives hresume => exact hfinish (resume_leaves hbase hg hresume).1 _
  | joins => exact ⟨_, getElem?_setGrant hg, rfl, rfl⟩
  | late => exact ⟨g, hg, rfl, rfl⟩
  | hears => exact ⟨g, hg, rfl, rfl⟩
  | leaves => exact ⟨_, getElem?_setGrant hg, rfl, rfl⟩
  | ends => exact ⟨g, hg, rfl, rfl⟩

theorem Turn.posts (hbase : base.SendsOnce) (hg : w.grants[place]? = some g)
    (h : Turn base place caller w g before exchange? reply? stretch) :
    Posts place g w stretch.2 exchange?.toList where
  grant := h.begun hbase.toKeepsApart hg
  sent := h.sent hbase
  presents := by
    intro exchange hexchange
    rw [((h.fetches_iff exchange).mpr (Option.mem_toList.mp hexchange)).2]
    exact g.credentials.request_presents w.now

/-- A caller comes to fetch: that is one token request.  In any other turn none is sent. -/
theorem turnFrom_posts (hbase : base.SendsOnce) (hg : w.grants[place]? = some g) :
    (Fetches g w.now before →
      ∃ exchange, Posts place g w (turnFrom base place caller before w).2 [exchange]) ∧
    (¬ Fetches g w.now before → Posts place g w (turnFrom base place caller before w).2 []) := by
  obtain ⟨exchange?, reply?, hturn⟩ := turnFrom_turn caller hg before
  have hposts := hturn.posts hbase hg
  constructor
  · intro hfetches
    rw [(hturn.fetches_iff _).mp ⟨hfetches, rfl⟩] at hposts
    exact ⟨_, hposts⟩
  · intro hnot
    obtain rfl : exchange? = none := Option.eq_none_iff_forall_ne_some.mpr fun exchange heq =>
      hnot ((hturn.fetches_iff exchange).mpr heq).1
    exact hposts

def StaysFetching {φ : Type} (stretch : Stretch (Phase φ) Result) : Prop :=
  ∀ phase wait, stretch.1 = .paused phase wait → ∃ inner, phase = .fetching inner

theorem turnFrom_staysFetching (hg : w.grants[place]? = some g)
    (h : Fetches g w.now before ∨ ∃ inner, before = some (.fetching inner)) :
    StaysFetching (turnFrom base place caller before w) := by
  obtain ⟨exchange?, reply?, hturn⟩ := turnFrom_turn caller hg before
  have hfetches := hturn.fetches_iff (tokenExchange g w.now)
  have hnot {β : Prop} (hnone : exchange? = none)
      (hphase : ∀ inner, before ≠ some (.fetching inner)) : β := by
    rcases h with h | ⟨inner, hinner⟩
    · have hsome := hfetches.mp ⟨h, rfl⟩
      rw [hnone] at hsome
      cases hsome
    · exact absurd hinner (hphase inner)
  have hwanting (hwants : Wants before) (inner : base.Phase) : before ≠ some (.fetching inner) := by
    rintro rfl
    exact hwants
  generalize turnFrom base place caller before w = stretch at hturn
  intro phase wait hpaused
  cases hturn with
  | serves hwants => cases hpaused
  | sees hwants => exact hnot rfl (hwanting hwants)
  | asks =>
      cases hpaused
      exact ⟨_, rfl⟩
  | exchanges => cases hpaused
  | continues =>
      cases hpaused
      exact ⟨_, rfl⟩
  | receives => cases hpaused
  | joins => exact hnot rfl nofun
  | late => exact hnot rfl nofun
  | hears => exact hnot rfl nofun
  | leaves => exact hnot rfl nofun
  | ends => cases hpaused

/-! ## Steps -/

variable {callers : List (Instant × Caller)} {t t' : Timeline (Phase base.Phase) Result}

/-- After any number of steps as many token requests have been sent as fetches were begun. -/
theorem posts_of_reaches (hbase : base.SendsOnce) (hg : w.grants[place]? = some g)
    (hreach : Reaches (ofJobs w (crowd base place callers)) t) :
    ∃ requests, Posts place g w t.world requests := by
  have hall : ∃ requests g', Posts place g w t.world requests ∧
      Peopled base place callers g' t := by
    refine hreach.invariant (I := fun t => ∃ requests g', Posts place g w t.world requests ∧
      Peopled base place callers g' t)
      ⟨[], g, (Posts.refl hg).congr rfl rfl, rfl, hg⟩ ?_
    rintro label t t' ⟨requests, g', hposts, hpeopled⟩ hnext
    obtain ⟨exchange?, reply?, hcourse, -, -⟩ := hpeopled.course hnext
    cases hcourse with
    | idles hidles =>
        exact ⟨requests, g', hposts.congr hidles.grants hidles.sent, hpeopled.idles hidles⟩
    | works _ _ _ hturn =>
        have hmore := hturn.posts hbase hpeopled.grant
        obtain ⟨g'', hg'', -⟩ := hmore.grant
        exact ⟨_, g'', (hposts.trans hpeopled.grant hmore).congr rfl rfl, hpeopled.turned hg''⟩
  obtain ⟨requests, -, hposts, -⟩ := hall
  exact ⟨requests, hposts⟩

/-- **Whoever comes to fetch presents the client's credentials** in one token request, whatever
state the grant is in, and sends none in its other turns; after any number of steps of any callers
as many have been sent as fetches were begun.  A token request asks for the scopes without those
that are empty and in front of all others.  So it asks for all of them, they are found again if
none has a space, and they are written as an inquiry writes the same scopes, exactly when no empty
one stands in front of another. -/
theorem fetchers_present_credentials (hbase : base.SendsOnce) (hg : w.grants[place]? = some g) :
    (∀ (caller : Caller) (before : Option (Phase base.Phase)),
      (Fetches g w.now before →
        ∃ exchange, Posts place g w (turnFrom base place caller before w).2 [exchange]) ∧
      (¬ Fetches g w.now before → Posts place g w (turnFrom base place caller before w).2 []) ∧
      (Fetches g w.now before ∨ (∃ inner, before = some (.fetching inner)) →
        StaysFetching (turnFrom base place caller before w))) ∧
    (∀ (callers : List (Instant × Caller)) (t : Timeline (Phase base.Phase) Result),
      Reaches (ofJobs w (crowd base place callers)) t →
        ∃ requests, Posts place g w t.world requests) ∧
    ∀ exchange, g.credentials.Presents (g.credentials.scopes.dropWhile List.isEmpty) exchange →
      (g.credentials.Presents g.credentials.scopes exchange ↔
        ¬ EmptyInFront g.credentials.scopes) ∧
      (g.credentials.scopes ≠ [] → (∀ scope ∈ g.credentials.scopes, Ascii.space ∉ scope) →
        ((scopeField exchange.request).map (Bytes.split Ascii.space) = some g.credentials.scopes ↔
          ¬ EmptyInFront g.credentials.scopes)) ∧
      ∀ (policy : Settings.Policy) (token : Bytes), policy.scopeStrategy = .none →
        policy.requiredScopes = g.credentials.scopes → g.credentials.scopes ≠ [] →
        (scopeField exchange.request = scopeField (Introspection.inquiryRequest policy token) ↔
          ¬ EmptyInFront g.credentials.scopes) := by
  refine ⟨?_, ?_, ?_⟩
  · intro caller before
    obtain ⟨hposts, hnothing⟩ := turnFrom_posts hbase hg
    exact ⟨hposts, hnothing, turnFrom_staysFetching hg⟩
  · intro callers t hreach
    exact posts_of_reaches hbase hg hreach
  · intro exchange hpresents
    refine ⟨hpresents.all_iff, ?_, ?_⟩
    · intro hne hspace
      rw [split_eq_some_iff hne hspace]
      exact hpresents.scopeField_iff hne
    · intro policy token hstrategy hrequired hne
      rw [scopeField_inquiry hstrategy, hrequired]
      exact hpresents.scopeField_iff hne

end

def clientOf (scopes : List Bytes) : Credentials where
  tokenUrl := { host := utf8 "auth", target := utf8 "/token" }
  clientId := utf8 "c&"
  clientSecret := utf8 "s"
  scopes := scopes

def grantOf (scopes : List Bytes) : Grant where
  credentials := clientOf scopes

/-- An empty scope between two others is found again. -/
theorem empty_scope_found :
    ∃ exchange,
      (turnFrom (wire issuingPeer) 0 {} none
        { grants := [grantOf [utf8 "a", [], utf8 "b"]] }).2.sent = [exchange] ∧
      (clientOf [utf8 "a", [], utf8 "b"]).Presents [utf8 "a", [], utf8 "b"] exchange ∧
      (scopeField exchange.request).map (Bytes.split Ascii.space) =
        some [utf8 "a", [], utf8 "b"] := by
  have hspace : ∀ scope ∈ [utf8 "a", [], utf8 "b"], Ascii.space ∉ scope := by decide
  have hfront : ¬ EmptyInFront [utf8 "a", [], utf8 "b"] := by
    rintro ⟨next, rest, hempty⟩
    cases hempty
  have hg : ({ grants := [grantOf [utf8 "a", [], utf8 "b"]] } : World).grants[0]? =
    some (grantOf [utf8 "a", [], utf8 "b"]) := rfl
  obtain ⟨hturns, -, hpresented⟩ := fetchers_present_credentials (wire_sendsOnce issuingPeer) hg
  obtain ⟨exchange, hposts⟩ := (hturns {} none).1 ⟨trivial, rfl, rfl⟩
  obtain ⟨hall, hfound, -⟩ :=
    hpresented exchange (hposts.presents exchange (List.mem_singleton_self _))
  exact ⟨exchange, hposts.sent, hall.mpr hfront,
    (hfound (List.cons_ne_nil _ _) hspace).mpr hfront⟩

/-- An empty scope in front is lost, and with it the space behind it. -/
theorem empty_scope_lost :
    ∃ exchange,
      (turnFrom (wire issuingPeer) 0 {} none
        { grants := [grantOf [[], utf8 "a"]] }).2.sent = [exchange] ∧
      Form.fields? exchange.request.body = some [(utf8 "grant_type", utf8 "client_credentials"),
        (utf8 "client_id", utf8 "c&"), (utf8 "client_secret", utf8 "s"),
        (utf8 "scope", utf8 "a")] ∧
      ¬ (clientOf [[], utf8 "a"]).Presents [[], utf8 "a"] exchange := by
  refine ⟨_, rfl, by decide +kernel, ?_⟩
  intro hall
  have hbody := hall.body
  revert hbody
  decide +kernel

end Acquire

end BearerAuth
