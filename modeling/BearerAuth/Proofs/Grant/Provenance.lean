import BearerAuth.Proofs.Grant.Turn
import BearerAuth.Proofs.Transport.Promise
import BearerAuth.Transport.Wire

/-!
# Where tokens come from

Over the wire a response is what the peer said to a request that was sent.  A
grant only ever takes its token from the answer to a request with its own
credentials: `GrantsSound` says so of a world.  `World.Grows` is what work may do
to a world: send what is the caller's `own`, and change grants without changing
whose they are.  Exchanges do no more than that and keep grants sound
(`Extends`), which for the wire is `wire_honours`.
-/

namespace BearerAuth

open Transport

/-! ## Answers -/

/-- Among the exchanges sent is one with a URL and a request that the peer
replied to. -/
def Answered (peer : Peer) (sent : List Exchange) (url : Url) (request : Request)
    (reply : Reply) : Prop :=
  ∃ before exchange after delivery, sent = before ++ exchange :: after ∧ exchange.url = url ∧
    exchange.request = request ∧ peer before exchange = .ok delivery ∧ delivery.reply = reply

/-- A response is an answer of the peer; failures may be the wire's. -/
def FromPeer (peer : Peer) (sent : List Exchange) (url : Url) (request : Request)
    (reply : Reply) : Prop :=
  ∀ response, reply = .ok response → Answered peer sent url request (.ok response)

/-- A token was issued in answer to a request with the credentials. -/
def Issued (peer : Peer) (sent : List Exchange) (credentials : Credentials) (token : Bytes) :
    Prop :=
  ∃ response lifetime, Answered peer sent credentials.tokenUrl credentials.request (.ok response) ∧
    IssuedToken.ofResponse response = .ok ⟨token, lifetime⟩

section

variable {peer : Peer} {sent : List Exchange} {url : Url} {request : Request} {reply : Reply}

theorem Answered.append (h : Answered peer sent url request reply) (new : List Exchange) :
    Answered peer (sent ++ new) url request reply := by
  obtain ⟨before, exchange, after, delivery, rfl, hrest⟩ := h
  exact ⟨before, exchange, after ++ new, delivery, by simp, hrest⟩

theorem Issued.append {credentials : Credentials} {token : Bytes}
    (h : Issued peer sent credentials token) (new : List Exchange) :
    Issued peer (sent ++ new) credentials token := by
  obtain ⟨response, lifetime, hanswer, htoken⟩ := h
  exact ⟨response, lifetime, hanswer.append new, htoken⟩

theorem FromPeer.error (failure : Failure) : FromPeer peer sent url request (.error failure) :=
  fun _ h => by cases h

end

theorem token_ne_nil {response : Response} {issued : IssuedToken}
    (h : IssuedToken.ofResponse response = .ok issued) : issued.token ≠ [] := by
  rw [IssuedToken.ofResponse] at h
  split at h
  · cases h
  · split at h
    · cases h
    · rw [IssuedToken.ofMembers] at h
      split at h
      · split at h
        · cases h
        · next token _ htoken =>
            obtain rfl := Except.ok.inj h
            simpa using htoken
      · cases h
    · cases h

/-! ## Grants in a world -/

/-- Every token a grant has was issued on its credentials; and when its last
publication was no failure, it has one. -/
structure GrantsSound (peer : Peer) (w : World) : Prop where
  issued : ∀ {place : Nat} {g : Grant}, w.grants[place]? = some g → g.token ≠ [] →
    Issued peer w.sent g.credentials g.token
  published : ∀ {place : Nat} {g : Grant}, w.grants[place]? = some g → g.published ≠ 0 →
    g.failure = none → g.token ≠ []

/-- At a place there is a grant with the credentials. -/
def HasGrant (w : World) (place : Nat) (credentials : Credentials) : Prop :=
  ∃ g, w.grants[place]? = some g ∧ g.credentials = credentials

/-- Exchanges are added, each of which is an own one, given those before it. -/
def Sends (own : List Exchange → Exchange → Prop) (sent sent' : List Exchange) : Prop :=
  ∃ new, sent' = sent ++ new ∧
    ∀ before exchange after, new = before ++ exchange :: after → own (sent ++ before) exchange

/-- What may become of a grant: it does not change hands, there are no fewer publications, and it
does not lose its token but for another one. -/
structure Grant.Ages (g g' : Grant) : Prop where
  credentials : g'.credentials = g.credentials
  published : g.published ≤ g'.published
  token : g.token ≠ [] → g'.token ≠ []

/-- Own exchanges are added, and grants age. -/
structure World.Grows (own : List Exchange → Exchange → Prop) (w w' : World) : Prop where
  sent : Sends own w.sent w'.sent
  grants : ∀ {place : Nat} {g : Grant}, w.grants[place]? = some g →
    ∃ g', w'.grants[place]? = some g' ∧ g.Ages g'

/-- What an exchange may do to a world: the pool is not its business. -/
structure Extends (peer : Peer) (own : List Exchange → Exchange → Prop) (w w' : World) : Prop
    extends World.Grows own w w' where
  sound : GrantsSound peer w'
  length : w'.grants.length = w.grants.length
  pool : w'.pool = w.pool

section

variable {peer : Peer} {own : List Exchange → Exchange → Prop} {w w' w'' : World}

theorem Sends.refl (sent : List Exchange) : Sends own sent sent :=
  ⟨[], by simp, fun before exchange after hnew => by simp at hnew⟩

theorem Sends.trans {sent sent' sent'' : List Exchange} (h : Sends own sent sent')
    (h' : Sends own sent' sent'') : Sends own sent sent'' := by
  obtain ⟨new, rfl, hown⟩ := h
  obtain ⟨new', rfl, hown'⟩ := h'
  refine ⟨new ++ new', by rw [List.append_assoc], ?_⟩
  intro before exchange after hsplit
  rcases List.append_eq_append_iff.mp hsplit with
    ⟨middle, hbefore, hafter⟩ | ⟨middle, hfirst, hrest⟩
  · rw [hbefore, ← List.append_assoc]
    exact hown' middle exchange after hafter
  · cases middle with
    | nil =>
        have hlast := hown' [] exchange after (by simpa using hrest.symm)
        simpa [hfirst] using hlast
    | cons first middle =>
        obtain ⟨rfl, -⟩ := List.cons.inj hrest
        exact hown before exchange middle hfirst

theorem Sends.single {sent : List Exchange} {exchange : Exchange} (h : own sent exchange) :
    Sends own sent (sent ++ [exchange]) := by
  refine ⟨[exchange], rfl, ?_⟩
  intro before exchange' after hnew
  cases before with
  | nil =>
      obtain ⟨rfl, -⟩ := List.cons.inj hnew
      simpa using h
  | cons first before =>
      obtain ⟨-, hnil⟩ := List.cons.inj hnew
      simp at hnil

theorem Sends.mono {own' : List Exchange → Exchange → Prop} {sent sent' : List Exchange}
    (h : Sends own sent sent') (hown : ∀ sent exchange, own sent exchange → own' sent exchange) :
    Sends own' sent sent' := by
  obtain ⟨new, hnew, hall⟩ := h
  refine ⟨new, hnew, fun before exchange after hsplit => ?_⟩
  exact hown _ _ (hall before exchange after hsplit)

theorem Grant.Ages.refl (g : Grant) : g.Ages g := ⟨rfl, Nat.le_refl _, id⟩

theorem World.Grows.of_same (hsent : w'.sent = w.sent) (hgrants : w'.grants = w.grants) :
    World.Grows own w w' :=
  ⟨hsent ▸ .refl _, fun hg => ⟨_, hgrants ▸ hg, .refl _⟩⟩

theorem World.Grows.trans (h : World.Grows own w w') (h' : World.Grows own w' w'') :
    World.Grows own w w'' where
  sent := h.sent.trans h'.sent
  grants := fun hg => by
    obtain ⟨g', hg', hages⟩ := h.grants hg
    obtain ⟨g'', hg'', hages'⟩ := h'.grants hg'
    exact ⟨g'', hg'', hages'.credentials.trans hages.credentials,
      Nat.le_trans hages.published hages'.published, fun hne => hages'.token (hages.token hne)⟩

theorem World.Grows.hasGrant (h : World.Grows own w w') {place : Nat} {credentials : Credentials}
    (hg : HasGrant w place credentials) : HasGrant w' place credentials := by
  obtain ⟨g, hplace, rfl⟩ := hg
  obtain ⟨g', hplace', hages⟩ := h.grants hplace
  exact ⟨g', hplace', hages.credentials⟩

theorem HasGrant.lt {place : Nat} {credentials : Credentials} (h : HasGrant w place credentials) :
    place < w.grants.length := by
  obtain ⟨g, hg, -⟩ := h
  exact (List.getElem?_eq_some_iff.mp hg).1

theorem FromPeer.grows {url : Url} {request : Request} {reply : Reply}
    (h : FromPeer peer w.sent url request reply) (hgrows : World.Grows own w w') :
    FromPeer peer w'.sent url request reply := by
  obtain ⟨new, hnew, -⟩ := hgrows.sent
  rw [hnew]
  exact fun response hreply => (h response hreply).append new

theorem GrantsSound.of_same (h : GrantsSound peer w) (hsent : w'.sent = w.sent)
    (hgrants : w'.grants = w.grants) : GrantsSound peer w' :=
  ⟨fun hg => hsent ▸ h.issued (hgrants ▸ hg), fun hg => h.published (hgrants ▸ hg)⟩

theorem Extends.of_same (h : GrantsSound peer w) (hsent : w'.sent = w.sent)
    (hgrants : w'.grants = w.grants) (hpool : w'.pool = w.pool) : Extends peer own w w' where
  toGrows := .of_same hsent hgrants
  sound := h.of_same hsent hgrants
  length := by rw [hgrants]
  pool := hpool

theorem Extends.refl (h : GrantsSound peer w) : Extends peer own w w := .of_same h rfl rfl rfl

theorem Extends.trans (h : Extends peer own w w') (h' : Extends peer own w' w'') :
    Extends peer own w w'' where
  toGrows := h.toGrows.trans h'.toGrows
  sound := h'.sound
  length := h'.length.trans h.length
  pool := h'.pool.trans h.pool

theorem Extends.mono {own' : List Exchange → Exchange → Prop} (h : Extends peer own w w')
    (hown : ∀ sent exchange, own sent exchange → own' sent exchange) : Extends peer own' w w' :=
  { h with sent := h.sent.mono hown }

theorem Extends.note (h : GrantsSound peer w) (level : Journal.Level) (message : Bytes) :
    Extends peer own w (w.note level message) :=
  .of_same h rfl rfl rfl

theorem Extends.setGrant (h : GrantsSound peer w) {place : Nat} {g g' : Grant}
    (hg : w.grants[place]? = some g) (hages : g.Ages g')
    (hissued : g'.token ≠ [] → Issued peer w.sent g'.credentials g'.token)
    (hlast : g'.published ≠ 0 → g'.failure = none → g'.token ≠ []) :
    Extends peer own w (w.setGrant place g') := by
  have hat (k : Nat) (gk : Grant) (hk : (w.setGrant place g').grants[k]? = some gk) :
      (k = place ∧ gk = g') ∨ w.grants[k]? = some gk := by
    by_cases heq : place = k
    · subst heq
      exact .inl ⟨rfl, (Option.some.inj ((getElem?_setGrant hg).symm.trans hk)).symm⟩
    · exact .inr (getElem?_setGrant_ne heq ▸ hk)
  refine ⟨⟨.refl _, ?_⟩, ⟨?_, ?_⟩, by simp [World.setGrant], rfl⟩
  · intro k gk hk
    by_cases heq : place = k
    · subst heq
      obtain rfl := Option.some.inj (hg.symm.trans hk)
      exact ⟨g', getElem?_setGrant hg, hages⟩
    · exact ⟨gk, (getElem?_setGrant_ne heq).trans hk, .refl gk⟩
  · intro k gk hk htoken
    rcases hat k gk hk with ⟨-, rfl⟩ | hk
    · exact hissued htoken
    · exact h.issued hk htoken
  · intro k gk hk hne hnone
    rcases hat k gk hk with ⟨-, rfl⟩ | hk
    · exact hlast hne hnone
    · exact h.published hk hne hnone

theorem Extends.touch (h : GrantsSound peer w) {place : Nat} {g g' : Grant}
    (hg : w.grants[place]? = some g) (hcred : g'.credentials = g.credentials)
    (htoken : g'.token = g.token) (hpub : g'.published = g.published)
    (hfailure : g'.failure = g.failure) : Extends peer own w (w.setGrant place g') := by
  refine .setGrant h hg ⟨hcred, Nat.le_of_eq hpub.symm, htoken ▸ id⟩ ?_ ?_
  · rw [htoken, hcred]
    exact h.issued hg
  · rw [hpub, hfailure, htoken]
    exact h.published hg

theorem Extends.send (h : GrantsSound peer w) {exchange : Exchange} (hown : own w.sent exchange) :
    Extends peer own w { w with sent := w.sent ++ [exchange] } where
  toGrows := ⟨.single hown, fun hg => ⟨_, hg, .refl _⟩⟩
  sound := ⟨fun hg htoken => (h.issued hg htoken).append _, fun hg => h.published hg⟩
  length := rfl
  pool := rfl

/-! ## The wire -/

variable {caller : Caller} {url : Url} {request : Request}

theorem wire_start_keeps (h : GrantsSound peer w) (hown : own w.sent ⟨w.now, url, request⟩) :
    ((wire peer).start caller url request w).Keeps (Extends peer own)
      (fun reply w' => FromPeer peer w'.sent url request reply)
      (fun reply w' => FromPeer peer w'.sent url request reply) w := by
  have hsend := Extends.send h hown
  simp only [wire]
  cases hpeer : peer w.sent ⟨w.now, url, request⟩ with
  | error failure => exact ⟨hsend, .error failure⟩
  | ok delivery =>
      have hreply : FromPeer peer (w.sent ++ [⟨w.now, url, request⟩]) url request delivery.reply :=
        fun response hok => ⟨w.sent, _, [], delivery, rfl, rfl, rfl, hpeer, hok⟩
      simp only [Wire.deliver]
      split
      · exact ⟨hsend, .error _⟩
      · split
        · exact ⟨hsend, .error _⟩
        · split
          · exact ⟨hsend, hreply⟩
          · refine ⟨hsend, ?_⟩
            simp only [Wire.ending]
            split
            · exact hreply
            · split
              · exact .error _
              · exact hreply

theorem wire_resume_keeps {reply : Reply} (h : GrantsSound peer w)
    (hreply : FromPeer peer w.sent url request reply) :
    ((wire peer).resume caller reply w).Keeps (Extends peer own)
      (fun reply w' => FromPeer peer w'.sent url request reply)
      (fun reply w' => FromPeer peer w'.sent url request reply) w := by
  refine ⟨.refl h, ?_⟩
  simp only [wire, Wire.arrive]
  split
  · exact .error _
  · exact hreply

theorem wire_honours (hown : ∀ sent now, own sent ⟨now, url, request⟩) :
    (wire peer).Honours caller url request (GrantsSound peer) (Extends peer own)
      (fun reply w => FromPeer peer w.sent url request reply)
      (fun reply w => FromPeer peer w.sent url request reply) where
  start hw := wire_start_keeps hw (hown _ _)
  resume hw hmine := wire_resume_keeps hw hmine

end

end BearerAuth
