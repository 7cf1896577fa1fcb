import BearerAuth.Gateway
import BearerAuth.Proofs.Secrecy.Authenticator
import BearerAuth.Proofs.Secrecy.Timeline

/-!
# What can be seen of secrets

A gateway is watched over a sequence of rounds: in each of them one matter is judged, or several on
one timeline, or a rule is validated, or settings change, or time passes.  Matters that are judged
alone share a session, which goes from one to the next.  What is seen are the judgements with their
sessions and the instants at which they come, the journal, the number of grants in the pool, and
when and to where requests are sent (`View`).

Two gateways that are paired do the same in paired rounds (`Gateways.perform`), so the same is seen
of them over all rounds (`secrets_unseen`).  That takes the secret of the defaults into account:
the rules of a run share a grant with the defaults when they spell out the secret that these have,
which can be seen (`default_secret_seen`).
-/

namespace BearerAuth

open Transport Introspection

namespace Gateway

/-! ## Rounds -/

/-- Who is on a roster. -/
inductive Post where
  | introspection
  | fixed (behaviour : Authenticator.Behaviour)

/-- The entry of a post in a roster. -/
def Post.entry (base : Transport) (options : Options) :
    Post → Bytes × Authenticator (Pending base)
  | .introspection => (identifier, authenticator base options)
  | .fixed behaviour => (behaviour.id, .fixed _ behaviour)

def opening (base : Transport) (options : Options) (settings : Settings.Store)
    (posts : List Post) : Gateway base :=
  { options, settings, roster := posts.map (Post.entry base options) }

/-- What happens next. -/
inductive Round where
  /-- A matter is judged with nobody else about, in the session that is there. -/
  | alone (matter : Matter)
  /-- A session takes the place of the one that is there. -/
  | renew (session : Session)
  /-- Matters are judged on one timeline, each from an instant on and in a session of its own. -/
  | together (matters : List (Instant × Matter)) (ties : Timeline.Ties := .firstSet)
  | validate (rule : Rule)
  /-- The introspection authenticator validates the text of a rule. -/
  | inspect (config : Bytes)
  | configure (settings : Settings.Store)
  /-- Time passes. -/
  | pass (span : Span)

/-- What a round comes to. -/
inductive Report where
  /-- Judgements, with the instants at which they come. -/
  | judged (judgements : List (Judgement × Instant))
  | validated (verdict : Verdict)
  | silent

/-- What a round comes to, with the session and the gateway after it, unless a judgement never
comes. -/
def perform {base : Transport} (gateway : Gateway base) (session : Session) :
    Round → Option (Report × Session × Gateway base)
  | .alone matter => (gateway.judge matter session).map
      fun (judgement, gateway) =>
        (.judged [(judgement, gateway.world.now)], judgement.2, gateway)
  | .renew session => some (.silent, session, gateway)
  | .together matters ties => (gateway.judgeAll matters ties).map
      fun (ends, gateway) =>
        (.judged (ends.map fun (judgement, world) => (judgement, world.now)), session, gateway)
  | .validate rule =>
      let (verdict, world) := Chain.validate gateway.roster gateway.settings rule gateway.world
      some (.validated verdict, session, { gateway with world })
  | .inspect config =>
      let (verdict, world) := Introspection.validate gateway.settings config gateway.world
      some (.validated verdict, session, { gateway with world })
  | .configure settings => some (.silent, session, { gateway with settings })
  | .pass span =>
      some (.silent, session, { gateway with
        world := gateway.world.advanceTo (Clock.after gateway.world.now span) })

def job {base : Transport} (gateway : Gateway base) :
    Instant × Matter → Job (Gateway.Phase base) Judgement
  | (begins, matter) =>
    { caller := callerOf matter
      begins
      start := gateway.start matter {}
      resume := gateway.resume matter }

theorem judgeAll_eq {base : Transport} (gateway : Gateway base)
    (matters : List (Instant × Matter)) (ties : Timeline.Ties) :
    gateway.judgeAll matters ties =
      (Timeline.complete gateway.world (matters.map gateway.job) ties).map
        fun (results, world) => (results, { gateway with world }) :=
  rfl

/-- What is seen of a gateway after a round. -/
structure View where
  report : Report
  now : Instant
  journal : List Journal.Entry
  /-- How many grants the pool remembers. -/
  cached : Nat
  /-- When and to where requests were sent. -/
  sent : List (Instant × Url)

def view {base : Transport} (report : Report) (gateway : Gateway base) : View where
  report
  now := gateway.world.now
  journal := gateway.world.journal
  cached := gateway.world.pool.length
  sent := gateway.world.sent.map fun exchange => (exchange.instant, exchange.url)

/-- What is seen over rounds, up to the first that never ends. -/
def watch {base : Transport} (gateway : Gateway base) (session : Session) :
    List Round → List View
  | [] => []
  | round :: rest => match gateway.perform session round with
    | none => []
    | some (report, session, gateway) => view report gateway :: watch gateway session rest

end Gateway

namespace Pairing

open Gateway

/-! ## Paired matters and rounds -/

inductive Matters (σ : Pairing) : Matter → Matter → Prop
  | inquiry {inquiry inquiry' : Inquiry} : σ.Inquiries inquiry inquiry' →
      Matters σ (.inquiry inquiry) (.inquiry inquiry')
  | petition {petition petition' : Chain.Petition} : σ.Petitions petition petition' →
      Matters σ (.petition petition) (.petition petition')

/-- Rounds that are the same but for secrets. -/
inductive Rounds (σ : Pairing) : Round → Round → Prop
  | alone {matter matter' : Matter} : σ.Matters matter matter' →
      Rounds σ (.alone matter) (.alone matter')
  | renew (session : Session) : Rounds σ (.renew session) (.renew session)
  | together (ties : Timeline.Ties) {matters matters' : List (Instant × Matter)} :
      List.Forall₂ (fun a b => a.1 = b.1 ∧ σ.Matters a.2 b.2) matters matters' →
      Rounds σ (.together matters ties) (.together matters' ties)
  | validate {rule rule' : Rule} : σ.RulePairs rule rule' →
      Rounds σ (.validate rule) (.validate rule')
  | inspect {config config' : Bytes} : Sources σ.Rules config config' →
      Rounds σ (.inspect config) (.inspect config')
  | configure {settings : Settings.Store} : σ.Settled settings →
      Rounds σ (.configure settings) (.configure settings)
  | pass (span : Span) : Rounds σ (.pass span) (.pass span)

theorem Matters.caller_eq {σ : Pairing} {matter matter' : Matter} (h : σ.Matters matter matter') :
    callerOf matter' = callerOf matter := by
  cases h with
  | inquiry hinquiries => exact hinquiries.caller.symm
  | petition hpetitions => exact hpetitions.caller.symm

/-! ## Paired gateways -/

section

variable {σ : Pairing} {base base' : Transport} {phases : base.Phase → base'.Phase → Prop}

/-- Gateways with the same options, settings and posts, in paired worlds. -/
structure Gateways (σ : Pairing) (posts : List Post) (gateway : Gateway base)
    (gateway' : Gateway base') : Prop where
  options : gateway.options = gateway'.options
  settings : gateway.settings = gateway'.settings
  settled : σ.Settled gateway.settings
  roster : gateway.roster = posts.map (Post.entry base gateway.options)
  roster' : gateway'.roster = posts.map (Post.entry base' gateway.options)
  world : σ.Worlds gateway.world gateway'.world

/-- Where paired judgements stand. -/
abbrev GatewayPhases (σ : Pairing) (phases : base.Phase → base'.Phase → Prop) :
    Gateway.Phase base → Gateway.Phase base' → Prop :=
  Sum.LiftRel (σ.Pendings phases) (σ.ChainPendings (σ.Pendings phases))

theorem Gateways.rosters {posts : List Post} {gateway : Gateway base} {gateway' : Gateway base'}
    (h : σ.Gateways posts gateway gateway') (hbase : σ.Transports base base' phases) :
    σ.Rosters gateway.settings (σ.Pendings phases) gateway.roster gateway'.roster := by
  rw [h.roster, h.roster', Rosters, List.forall₂_map_left_iff, List.forall₂_map_right_iff,
    List.forall₂_same]
  intro post _
  cases post with
  | introspection => exact ⟨rfl, introspection_authenticators hbase h.settled gateway.options⟩
  | fixed behaviour => exact ⟨rfl, fixed_authenticators _ _ behaviour⟩

variable {posts : List Post} {gateway : Gateway base} {gateway' : Gateway base'}
  {matter matter' : Matter}

theorem Gateways.start (h : σ.Gateways posts gateway gateway')
    (hbase : σ.Transports base base' phases) (hmatters : σ.Matters matter matter')
    (session : Session) {world world' : World} (hworlds : σ.Worlds world world') :
    σ.Stretches (σ.GatewayPhases phases) Eq (gateway.start matter session world)
      (gateway'.start matter' session world') := by
  have hauthenticators := introspection_authenticators hbase h.settled gateway.options
  cases hmatters with
  | inquiry hinquiries =>
      simp only [Gateway.start, ← h.options, ← h.settings]
      refine (hauthenticators.start session hinquiries hworlds).inside ?_
      intro pending pending' hpendings
      exact .inl hpendings
  | petition hpetitions =>
      simp only [Gateway.start, ← h.settings]
      refine (chain_start (h.rosters hbase) hpetitions session hworlds).inside ?_
      intro pending pending' hpendings
      exact .inr hpendings

theorem Gateways.resume (h : σ.Gateways posts gateway gateway')
    (hbase : σ.Transports base base' phases) (hmatters : σ.Matters matter matter')
    {phase : Gateway.Phase base} {phase' : Gateway.Phase base'}
    (hphases : σ.GatewayPhases phases phase phase') {world world' : World}
    (hworlds : σ.Worlds world world') :
    σ.Stretches (σ.GatewayPhases phases) Eq (gateway.resume matter phase world)
      (gateway'.resume matter' phase' world') := by
  have hauthenticators := introspection_authenticators hbase h.settled gateway.options
  cases hphases with
  | inl hpendings =>
      simp only [Gateway.resume, hmatters.caller_eq]
      refine (hauthenticators.resume (callerOf matter) hpendings hworlds).inside ?_
      intro pending pending' hpendings
      exact .inl hpendings
  | inr hpendings =>
      cases hmatters with
      | inquiry => exact .done rfl hworlds
      | petition hpetitions =>
          simp only [Gateway.resume, ← h.settings]
          refine (chain_resume (h.rosters hbase) hpetitions hpendings hworlds).inside ?_
          intro pending pending' hpendings
          exact .inr hpendings

theorem Gateways.jobs (h : σ.Gateways posts gateway gateway')
    (hbase : σ.Transports base base' phases) {matters matters' : List (Instant × Matter)}
    (hmatters : List.Forall₂ (fun a b => a.1 = b.1 ∧ σ.Matters a.2 b.2) matters matters') :
    List.Forall₂ (σ.Jobs (σ.GatewayPhases phases) Eq) (matters.map gateway.job)
      (matters'.map gateway'.job) := by
  rw [List.forall₂_map_left_iff, List.forall₂_map_right_iff]
  refine hmatters.imp fun entry entry' hentry => ?_
  obtain ⟨hbegins, hmatter⟩ := hentry
  exact
    { caller := hmatter.caller_eq.symm
      begins := hbegins
      start := fun hworlds => h.start hbase hmatter {} hworlds
      resume := fun hphases hworlds => h.resume hbase hmatter hphases hworlds }

theorem judged_eq {ends ends' : List (Judgement × World)}
    (h : List.Forall₂ (fun a b => a.1 = b.1 ∧ σ.Worlds a.2 b.2) ends ends') :
    ends.map (fun (judgement, world) => (judgement, world.now)) =
      ends'.map fun (judgement, world) => (judgement, world.now) := by
  induction h with
  | nil => rfl
  | @cons a b rest rest' hend _ ih =>
      obtain ⟨judgement, world⟩ := a
      obtain ⟨judgement', world'⟩ := b
      obtain ⟨hjudgement, hworlds⟩ : judgement = judgement' ∧ σ.Worlds world world' := hend
      simp only [List.map_cons, hjudgement, hworlds.now, ih]

theorem Gateways.perform (h : σ.Gateways posts gateway gateway')
    (hbase : σ.Transports base base' phases) {round round' : Round}
    (hrounds : σ.Rounds round round') (session : Session) :
    Option.Rel (fun a b => a.1 = b.1 ∧ a.2.1 = b.2.1 ∧ σ.Gateways posts a.2.2 b.2.2)
      (gateway.perform session round) (gateway'.perform session round') := by
  cases hrounds with
  | renew => exact .some ⟨rfl, rfl, h⟩
  | @alone matter matter' hmatters =>
      have hends := finish_pairs (fun hphases hworlds => h.resume hbase hmatters hphases hworlds)
        (h.start hbase hmatters session h.world) patience
      simp only [Gateway.perform, Gateway.judge]
      generalize Stretch.finish (gateway.resume matter) patience
        (gateway.start matter session gateway.world) = outcome at hends ⊢
      generalize Stretch.finish (gateway'.resume matter') patience
        (gateway'.start matter' session gateway'.world) = outcome' at hends ⊢
      cases hends with
      | none => exact .none
      | @some a b hends =>
          obtain ⟨judgement, world⟩ := a
          obtain ⟨judgement', world'⟩ := b
          obtain ⟨hjudgement, hworlds⟩ : judgement = judgement' ∧ σ.Worlds world world' := hends
          refine .some ⟨?_, congrArg Prod.snd hjudgement, { h with world := hworlds }⟩
          simp only [hjudgement, hworlds.now]
  | @together ties matters matters' hmatters =>
      have hends := complete_pairs (h.jobs hbase hmatters) h.world ties
      rw [Gateway.perform, Gateway.perform, judgeAll_eq, judgeAll_eq]
      generalize Timeline.complete gateway.world (matters.map gateway.job) ties = outcome
        at hends ⊢
      generalize Timeline.complete gateway'.world (matters'.map gateway'.job) ties = outcome'
        at hends ⊢
      cases hends with
      | none => exact .none
      | some hends => exact .some ⟨congrArg Report.judged (judged_eq hends.1), rfl,
          { h with world := hends.2 }⟩
  | @validate rule rule' hrules =>
      obtain ⟨hverdict, hworlds⟩ := validate_pairs (h.rosters hbase) hrules h.world
      have hvalidated : σ.Worlds
          (Chain.validate gateway.roster gateway.settings rule gateway.world).2
          (Chain.validate gateway'.roster gateway'.settings rule' gateway'.world).2 := by
        rw [← h.settings]
        exact hworlds
      refine .some ⟨congrArg Report.validated ?_, rfl, { h with world := hvalidated }⟩
      rw [← h.settings]
      exact hverdict.symm
  | @inspect config config' hconfigs =>
      obtain ⟨hverdict, hworlds⟩ :=
        (introspection_authenticators hbase h.settled {}).validate hconfigs h.world
      have hinspected : σ.Worlds (Introspection.validate gateway.settings config gateway.world).2
          (Introspection.validate gateway'.settings config' gateway'.world).2 := by
        rw [← h.settings]
        exact hworlds
      refine .some ⟨congrArg Report.validated ?_, rfl, { h with world := hinspected }⟩
      rw [← h.settings]
      exact hverdict.symm
  | configure hsettled =>
      exact .some ⟨rfl, rfl, { h with settings := rfl, settled := hsettled }⟩
  | pass span =>
      refine .some ⟨rfl, rfl, { h with world := ?_ }⟩
      simp only [← h.world.now]
      exact h.world.advanceTo _

theorem Gateways.view_eq (h : σ.Gateways posts gateway gateway') (report : Report) :
    view report gateway = view report gateway' := by
  have hsent : gateway.world.sent.map (fun exchange => (exchange.instant, exchange.url)) =
      gateway'.world.sent.map fun exchange => (exchange.instant, exchange.url) := by
    have hexchanges := h.world.sent
    generalize gateway.world.sent = sent at hexchanges ⊢
    generalize gateway'.world.sent = sent' at hexchanges ⊢
    induction hexchanges with
    | nil => rfl
    | cons hexchange _ ih =>
        rw [List.map_cons, List.map_cons, hexchange.instant, hexchange.url, ih]
  rw [view, view, h.world.now, h.world.journal, h.world.pool.length_eq, hsent]

theorem Gateways.watch_eq (h : σ.Gateways posts gateway gateway')
    (hbase : σ.Transports base base' phases) {rounds rounds' : List Round}
    (hrounds : List.Forall₂ σ.Rounds rounds rounds') (session : Session) :
    watch gateway session rounds = watch gateway' session rounds' := by
  induction hrounds generalizing gateway gateway' session with
  | nil => rfl
  | @cons round round' rest rest' hround _ ih =>
      have hperformed := h.perform hbase hround session
      rw [watch, watch]
      generalize gateway.perform session round = outcome at hperformed ⊢
      generalize gateway'.perform session round' = outcome' at hperformed ⊢
      cases hperformed with
      | none => rfl
      | @some a b hperformed =>
          obtain ⟨report, after, left⟩ := a
          obtain ⟨report', after', left'⟩ := b
          obtain ⟨hreport, hafter, hleft⟩ :
            report = report' ∧ after = after' ∧ σ.Gateways posts left left' := hperformed
          simp only [hreport, hafter, hleft.view_eq report', ih hleft after']

theorem opening_gateways {settings : Settings.Store} (hsettled : σ.Settled settings)
    (options : Options) (posts : List Post) :
    σ.Gateways posts (opening base options settings posts)
      (opening base' options settings posts) :=
  ⟨rfl, rfl, hsettled, rfl, rfl, .empty⟩

end

end Pairing

namespace Gateway

open Pairing

/-- **Nothing is seen of secrets.**  Two gateways begin alike, over peers that answer alike what is
alike, and go through rounds that are the same but for the secrets of clients and for tokens.  As
long as secrets are equal in one where they are in the other, those of the defaults included, the
same is seen of both. -/
theorem secrets_unseen {σ : Pairing} {peer peer' : Peer} (hpeers : σ.Peers peer peer')
    {settings : Settings.Store} (hsettled : σ.Settled settings) (options : Options)
    (posts : List Post) (session : Session) {rounds rounds' : List Round}
    (hrounds : List.Forall₂ σ.Rounds rounds rounds') :
    watch (opening (wire peer) options settings posts) session rounds =
      watch (opening (wire peer') options settings posts) session rounds' :=
  (opening_gateways hsettled options posts).watch_eq (wire_transports hpeers) hrounds session

/-! ## Two runs -/

/-- One secret stands where another does, and a token where any other token does. -/
def replacing (secret secret' : Bytes) (h : secret.isEmpty = false)
    (h' : secret'.isEmpty = false) : Pairing where
  Secrets a b := a = [] ∧ b = [] ∨ a = secret ∧ b = secret'
  Tokens a b := a = [] ↔ b = []
  noSecret := .inl ⟨rfl, rfl⟩
  noToken := Iff.rfl
  oneToOne := by
    rw [List.isEmpty_eq_false_iff] at h h'
    rintro a b c d (⟨rfl, rfl⟩ | ⟨rfl, rfl⟩) (⟨rfl, rfl⟩ | ⟨rfl, rfl⟩)
    · exact Iff.rfl
    · exact iff_of_false h.symm h'.symm
    · exact iff_of_false h h'
    · exact iff_of_true rfl rfl
  nil_iff h := h

/-- A gateway whose introspection has defaults, with a client and perhaps its secret. -/
def clientDefaults (secret : Json.Members) : Settings.Store :=
  [(identifier, {
    enabled := true
    defaults := [
      (utf8 "introspection_url", .text (utf8 "http://i/")),
      (utf8 "pre_authorization", .object ([
        (utf8 "enabled", .bool true),
        (utf8 "client_id", .text (utf8 "c")),
        (utf8 "token_url", .text (utf8 "http://t/"))] ++ secret))] })]

/-- The text of a rule that spells out the client's secret. -/
def spelling (secret : Bytes) : Bytes :=
  utf8 "\x7b\"pre_authorization\":\x7b\"client_secret\":\"" ++ secret ++ utf8 "\"\x7d\x7d"

def bearer (token : Bytes) : Request :=
  { headers := [(utf8 "Authorization", utf8 "Bearer " ++ token)] }

def presenting (token config : Bytes) : Matter :=
  .inquiry { request := bearer token, ruleId := utf8 "r", config }

/-- Issues a token at one place, and finds every token active at any other. -/
def issuing (token : Bytes) : Peer := fun _ exchange =>
  .ok { reply := .ok ⟨200, if exchange.url.host = utf8 "t" then
    utf8 "\x7b\"access_token\":\"" ++ token ++ utf8 "\"\x7d" else
    utf8 "\x7b\"active\":true\x7d"⟩ }

theorem issuing_peers {σ : Pairing} (h : σ.Tokens (utf8 "a") (utf8 "b")) :
    σ.Peers (issuing (utf8 "a")) (issuing (utf8 "b")) := by
  intro history history' exchange exchange' _ hexchanges
  refine .ok ⟨rfl, .response ?_⟩
  rw [hexchanges.url]
  split
  · have hread (token : Bytes) (hne : token ∈ [utf8 "a", utf8 "b"]) :
        Json.parse (utf8 "\x7b\"access_token\":\"" ++ token ++ utf8 "\"\x7d") =
          .ok (.object [(utf8 "access_token", .text token)]) := by
      simp only [List.mem_cons, List.not_mem_nil, or_false] at hne
      obtain rfl | rfl := hne
      · rfl
      · rfl
    exact .read (hread _ (by simp)) (hread _ (by simp)) (.object (.single (.text h)))
  · refine .same fun value hvalue => ?_
    have hread : Json.parse (utf8 "\x7b\"active\":true\x7d") =
        .ok (.object [(utf8 "active", .bool true)]) := rfl
    obtain rfl := Except.ok.inj (hread.symm.trans hvalue)
    refine .object (.same fun member hmember hkey => ?_)
    obtain rfl := List.mem_singleton.mp hmember
    exact absurd hkey (by decide)

theorem spelling_rules {σ : Pairing} {secret secret' : Bytes} (h : σ.Secrets secret secret')
    (hread : Json.parse (spelling secret) = .ok (.object [(utf8 "pre_authorization",
      .object [(utf8 "client_secret", .text secret)])]))
    (hread' : Json.parse (spelling secret') = .ok (.object [(utf8 "pre_authorization",
      .object [(utf8 "client_secret", .text secret')])])) :
    Sources σ.Rules (spelling secret) (spelling secret') :=
  .read hread hread' (.object (.single (.object (.single (.text h)))))

theorem extract_bearer (location : Option Credential.Location) :
    (∀ token, Credential.extract (bearer token) location =
      Credential.fromAuthorization (bearer token)) ∨
    ∀ token, Credential.extract (bearer token) location = [] := by
  match location with
  | none => exact .inl fun _ => rfl
  | some ⟨none, none, none⟩ => exact .inl fun _ => rfl
  | some ⟨none, none, some name⟩ => exact .inr fun _ => rfl
  | some ⟨none, some name, _⟩ => exact .inr fun _ => rfl
  | some ⟨some name, _, _⟩ =>
      by_cases hname : Bytes.sameLetters name (utf8 "Authorization") = true
      · refine .inl fun token => ?_
        simp only [Credential.extract, Credential.fromHeader, hname, if_true]
      · refine .inr fun token => ?_
        have hother : Bytes.sameLetters (utf8 "Authorization") name = false := by
          rw [Bytes.sameLetters, BEq.comm]
          exact Bool.not_eq_true _ ▸ hname
        simp only [Credential.extract, Credential.fromHeader, hname, Headers.first,
          Headers.values, bearer, List.filter, hother]
        rfl

theorem presenting_matters {σ : Pairing} (h : σ.Tokens (utf8 "x") (utf8 "y"))
    {config config' : Bytes} (hconfigs : Sources σ.Rules config config') :
    σ.Matters (presenting (utf8 "x") config) (presenting (utf8 "y") config') := by
  refine .inquiry ⟨rfl, rfl, hconfigs, fun location => ?_⟩
  simp only
  obtain hfound | hnone := extract_bearer location
  · rw [hfound, hfound]
    exact h
  · rw [hnone, hnone]
    exact σ.noToken

/-- A request alone, and after a while two at once, under rules with one secret. -/
def asking (secret token : Bytes) : List Round :=
  [.alone (presenting token (spelling secret)), .pass 1000000000,
    .together [(0, presenting token (spelling secret)), (0, presenting token (spelling secret))]]

/-- Other secrets and tokens, and the same to be seen: two requests are made in the first round and
two in the last. -/
theorem asking_unseen :
    watch (opening (wire (issuing (utf8 "a"))) {} (clientDefaults []) [.introspection]) {}
        (asking (utf8 "s") (utf8 "x")) =
      watch (opening (wire (issuing (utf8 "b"))) {} (clientDefaults []) [.introspection]) {}
        (asking (utf8 "u") (utf8 "y")) ∧
    (watch (opening (wire (issuing (utf8 "a"))) {} (clientDefaults []) [.introspection]) {}
        (asking (utf8 "s") (utf8 "x"))).map (fun view => view.sent.length) = [2, 2, 4] := by
  have hsettled : (replacing (utf8 "s") (utf8 "u") rfl rfl).Settled (clientDefaults []) := by
    refine .object (.same fun member hmember _ => ?_)
    obtain rfl | rfl := List.mem_pair.mp hmember
    · exact .same nofun
    · have hsilent : ∀ inner ∈ [(utf8 "enabled", Json.bool true),
          (utf8 "client_id", .text (utf8 "c")), (utf8 "token_url", .text (utf8 "http://t/"))],
          inner.1 ≠ utf8 "client_secret" := by decide
      exact .object (.same fun inner hinner hkey => absurd hkey (hsilent inner hinner))
  have hmatters : (replacing (utf8 "s") (utf8 "u") rfl rfl).Matters
      (presenting (utf8 "x") (spelling (utf8 "s")))
      (presenting (utf8 "y") (spelling (utf8 "u"))) :=
    presenting_matters (iff_of_false nofun nofun) (spelling_rules (.inr ⟨rfl, rfl⟩) rfl rfl)
  refine ⟨?_, ?_⟩
  · refine secrets_unseen (issuing_peers (iff_of_false nofun nofun)) hsettled {} _ {} ?_
    refine .cons (.alone hmatters) (.cons (.pass _) (.cons (.together _ ?_) .nil))
    exact .cons ⟨rfl, hmatters⟩ (.cons ⟨rfl, hmatters⟩ .nil)
  · decide +kernel

/-- Two requests, under a rule that says nothing about the client and one with a secret. -/
def sharing (secret token : Bytes) : List Round :=
  [.alone (presenting token (utf8 "\x7b\x7d")), .alone (presenting token (spelling secret))]

/-- The secret of the defaults is the same in both runs.  Where the rule of one run spells it out
and that of the other has another secret, the pools come to differ. -/
theorem default_secret_seen :
    (replacing (utf8 "d") (utf8 "u") rfl rfl).Peers (issuing (utf8 "a")) (issuing (utf8 "b")) ∧
      List.Forall₂ (replacing (utf8 "d") (utf8 "u") rfl rfl).Rounds
        (sharing (utf8 "d") (utf8 "x")) (sharing (utf8 "u") (utf8 "y")) ∧
      (watch (opening (wire (issuing (utf8 "a"))) {}
        (clientDefaults [(utf8 "client_secret", .text (utf8 "d"))]) [.introspection]) {}
        (sharing (utf8 "d") (utf8 "x"))).map View.cached = [1, 1] ∧
      (watch (opening (wire (issuing (utf8 "b"))) {}
        (clientDefaults [(utf8 "client_secret", .text (utf8 "d"))]) [.introspection]) {}
        (sharing (utf8 "u") (utf8 "y"))).map View.cached = [1, 2] := by
  refine ⟨issuing_peers (iff_of_false nofun nofun), ?_, by decide +kernel, by decide +kernel⟩
  have hsilent : Sources (replacing (utf8 "d") (utf8 "u") rfl rfl).Rules (utf8 "\x7b\x7d")
      (utf8 "\x7b\x7d") := .read rfl rfl (.object .nil)
  have hspelled : Sources (replacing (utf8 "d") (utf8 "u") rfl rfl).Rules
      (spelling (utf8 "d")) (spelling (utf8 "u")) := spelling_rules (.inr ⟨rfl, rfl⟩) rfl rfl
  refine .cons (.alone (presenting_matters (iff_of_false nofun nofun) hsilent)) ?_
  exact .cons (.alone (presenting_matters (iff_of_false nofun nofun) hspelled)) .nil

end Gateway

end BearerAuth
