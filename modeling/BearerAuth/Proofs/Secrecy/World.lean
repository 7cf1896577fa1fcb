import BearerAuth.Proofs.Grant.Key
import BearerAuth.Proofs.Grant.Turn
import BearerAuth.Proofs.Secrecy.Policy
import BearerAuth.Timeline

/-!
# Paired worlds

Two worlds are paired (`Worlds`) when clock, journal, releases and agenda are the same, and
exchanges, grants and pool are the same but for secrets: those in the bodies and in the headers of
requests, the credentials and tokens of grants, and the keys of the pool.  A key is put together
with a secret in it, so what the pool finds depends on which secrets are equal; since the pairing is
one to one it finds the same line in both (`Pools.find?_eq`).
-/

namespace BearerAuth

open Transport

namespace Pairing

/-! ## Requests -/

/-- Form fields of one name, with one value, paired secrets or paired tokens. -/
structure FormFields (σ : Pairing) (field field' : Bytes × Bytes) : Prop where
  name : field.1 = field'.1
  value : field.2 = field'.2 ∨ σ.Secrets field.2 field'.2 ∨ σ.Tokens field.2 field'.2

/-- A header value that bears a token. -/
def bearing (token : Bytes) : Bytes := Bytes.trim (utf8 "Bearer " ++ token)

/-- Headers of one name, with one value or bearing paired tokens. -/
structure HeaderLines (σ : Pairing) (header header' : Bytes × Bytes) : Prop where
  name : header.1 = header'.1
  value : header.2 = header'.2 ∨ ∃ token token', σ.Tokens token token' ∧
    header.2 = bearing token ∧ header'.2 = bearing token'

/-- Requests are the same but for secrets and tokens in a form, and tokens in headers. -/
structure Requests (σ : Pairing) (request request' : Request) : Prop where
  method : request.method = request'.method
  target : request.target = request'.target
  headers : List.Forall₂ σ.HeaderLines request.headers request'.headers
  body : ∃ fields fields', List.Forall₂ σ.FormFields fields fields' ∧
    request.body = Form.encodeFields fields ∧ request'.body = Form.encodeFields fields'

structure Exchanges (σ : Pairing) (exchange exchange' : Exchange) : Prop where
  instant : exchange.instant = exchange'.instant
  url : exchange.url = exchange'.url
  request : σ.Requests exchange.request exchange'.request

section

variable {σ : Pairing}

theorem FormFields.same (field : Bytes × Bytes) : σ.FormFields field field :=
  ⟨rfl, .inl rfl⟩

theorem HeaderLines.same (header : Bytes × Bytes) : σ.HeaderLines header header :=
  ⟨rfl, .inl rfl⟩

theorem headerLines_same (headers : Headers) : List.Forall₂ σ.HeaderLines headers headers :=
  List.forall₂_same.mpr fun header _ => .same header

theorem set_headerLines {headers headers' : Headers} {name value value' : Bytes}
    (h : List.Forall₂ σ.HeaderLines headers headers')
    (hvalue : σ.HeaderLines (name, Bytes.trim value) (name, Bytes.trim value')) :
    List.Forall₂ σ.HeaderLines (headers.set name value) (headers'.set name value') := by
  have hkept : List.Forall₂ σ.HeaderLines
      (headers.filter fun header => !Bytes.sameLetters header.1 name)
      (headers'.filter fun header => !Bytes.sameLetters header.1 name) := by
    refine List.rel_filter (fun header header' hline => ?_) h
    simp only [hline.name]
  exact List.rel_append hkept (.cons hvalue .nil)

end

/-! ## Credentials -/

/-- Credentials are the same but for the secret. -/
structure CredentialPairs (σ : Pairing) (credentials credentials' : Credentials) : Prop where
  rest : credentials' = { credentials with clientSecret := credentials'.clientSecret }
  secret : σ.Secrets credentials.clientSecret credentials'.clientSecret

section

variable {σ : Pairing} {credentials credentials' : Credentials}

theorem CredentialPairs.tokenUrl_eq (h : σ.CredentialPairs credentials credentials') :
    credentials'.tokenUrl = credentials.tokenUrl := by
  rw [h.rest]

theorem CredentialPairs.fields (h : σ.CredentialPairs credentials credentials') :
    List.Forall₂ σ.FormFields credentials.fields credentials'.fields := by
  have hsame (fields : Form.Fields) : List.Forall₂ σ.FormFields fields fields :=
    List.forall₂_same.mpr fun field _ => .same field
  have hsecret : List.Forall₂ σ.FormFields
      (if credentials.clientSecret.isEmpty then []
        else [(utf8 "client_secret", credentials.clientSecret)])
      (if credentials'.clientSecret.isEmpty then []
        else [(utf8 "client_secret", credentials'.clientSecret)]) := by
    rw [← h.secret.isEmpty_eq]
    split
    · exact .nil
    · exact .cons ⟨rfl, .inr (.inl h.secret)⟩ .nil
  rw [Credentials.fields, Credentials.fields, h.rest]
  exact List.rel_append (List.rel_append (hsame _) hsecret) (hsame _)

theorem CredentialPairs.request (h : σ.CredentialPairs credentials credentials') :
    σ.Requests credentials.request credentials'.request := by
  refine ⟨rfl, ?_, headerLines_same _, _, _, h.fields, rfl, rfl⟩
  simp only [Credentials.request, h.tokenUrl_eq]

theorem inquiryRequest_pairs {policy policy' : Settings.Policy} {token token' : Bytes}
    (h : σ.Policies policy policy') (htoken : σ.Tokens token token') :
    σ.Requests (Introspection.inquiryRequest policy token)
      (Introspection.inquiryRequest policy' token') := by
  rw [h.rest]
  refine ⟨rfl, rfl, headerLines_same _, _, _, ?_, rfl, rfl⟩
  refine .cons ⟨rfl, .inr (.inr htoken)⟩ ?_
  exact List.forall₂_same.mpr fun field _ => .same field

end

/-! ## Grants -/

/-- Grants are the same but for secret and token. -/
structure GrantPairs (σ : Pairing) (grant grant' : Grant) : Prop where
  rest : grant' = { grant with credentials := grant'.credentials, token := grant'.token }
  credentials : σ.CredentialPairs grant.credentials grant'.credentials
  token : σ.Tokens grant.token grant'.token

section

variable {σ : Pairing} {grant grant' : Grant}

theorem GrantPairs.opened {credentials credentials' : Credentials}
    (h : σ.CredentialPairs credentials credentials') :
    σ.GrantPairs { credentials } { credentials := credentials' } :=
  ⟨rfl, h, σ.noToken⟩

theorem GrantPairs.isFresh_eq (h : σ.GrantPairs grant grant') (now : Instant) :
    grant'.isFresh now = grant.isFresh now := by
  rw [Grant.isFresh, Grant.isFresh, ← h.token.isEmpty_eq, h.rest, h.credentials.rest]

theorem GrantPairs.busy_eq (h : σ.GrantPairs grant grant') : grant'.busy = grant.busy := by
  rw [h.rest]

theorem GrantPairs.published_eq (h : σ.GrantPairs grant grant') :
    grant'.published = grant.published := by
  rw [h.rest]

theorem GrantPairs.failure_eq (h : σ.GrantPairs grant grant') :
    grant'.failure = grant.failure := by
  rw [h.rest]

theorem GrantPairs.givenUp_eq (h : σ.GrantPairs grant grant') :
    grant'.givenUp = grant.givenUp := by
  rw [h.rest]

theorem GrantPairs.released_eq (h : σ.GrantPairs grant grant') :
    grant'.released = grant.released := by
  rw [Grant.released, Grant.released, h.rest]

theorem GrantPairs.beginFetch (h : σ.GrantPairs grant grant') :
    σ.GrantPairs grant.beginFetch grant'.beginFetch := by
  refine ⟨?_, h.credentials, h.token⟩
  rw [Grant.beginFetch, Grant.beginFetch, h.rest]

theorem GrantPairs.join (h : σ.GrantPairs grant grant') (ticket : Ticket) (seen : Nat) :
    σ.GrantPairs (grant.join ticket seen) (grant'.join ticket seen) := by
  refine ⟨?_, h.credentials, h.token⟩
  rw [Grant.join, Grant.join, h.rest]

theorem GrantPairs.leave (h : σ.GrantPairs grant grant') (ticket : Ticket) :
    σ.GrantPairs (grant.leave ticket) (grant'.leave ticket) := by
  refine ⟨?_, h.credentials, h.token⟩
  rw [Grant.leave, Grant.leave, h.rest]

end

/-- Tokens are paired, and can be used for the same time. -/
structure IssuedPairs (σ : Pairing) (issued issued' : IssuedToken) : Prop where
  token : σ.Tokens issued.token issued'.token
  lifetime : issued.lifetime = issued'.lifetime

theorem GrantPairs.publish {σ : Pairing} {grant grant' : Grant} (h : σ.GrantPairs grant grant')
    (now : Instant) {outcome outcome' : Except Failure IssuedToken}
    (houtcome : Outcomes σ.IssuedPairs outcome outcome') :
    σ.GrantPairs (grant.publish now outcome) (grant'.publish now outcome') := by
  cases houtcome with
  | ok hissued =>
      refine ⟨?_, h.credentials, hissued.token⟩
      simp only [Grant.publish, Grant.keepToken, Grant.endFetch, hissued.lifetime]
      rw [h.rest]
  | error failure =>
      refine ⟨?_, h.credentials, h.token⟩
      simp only [Grant.publish, Grant.keepFailure, Grant.endFetch]
      rw [h.rest]

/-! ## The pool -/

/-- The keys of clients that are the same but for the secret. -/
def Keys (σ : Pairing) (key key' : Bytes) : Prop :=
  ∃ endpoint schedule pre pre', σ.PreAuthorizations pre pre' ∧
    key = Pool.key endpoint pre schedule ∧ key' = Pool.key endpoint pre' schedule

def Pools (σ : Pairing) : Pool → Pool → Prop :=
  List.Forall₂ fun entry entry' => σ.Keys entry.1 entry'.1 ∧ entry.2 = entry'.2

section

variable {σ : Pairing}

/-- Keys of one run are equal exactly where those of the other are. -/
theorem Keys.eq_iff {key key' other other' : Bytes} (h : σ.Keys key key')
    (hother : σ.Keys other other') : key = other ↔ key' = other' := by
  obtain ⟨endpoint, schedule, pre, pre', hpre, rfl, rfl⟩ := h
  obtain ⟨endpoint₂, schedule₂, pre₂, pre₂', hpre₂, rfl, rfl⟩ := hother
  have hsecret : pre.clientSecret = pre₂.clientSecret ↔ pre'.clientSecret = pre₂'.clientSecret :=
    σ.oneToOne hpre.secret hpre₂.secret
  rw [Pool.key_eq_iff, Pool.key_eq_iff, hsecret,
    show pre'.clientId = pre.clientId by rw [hpre.rest],
    show pre'.scopes = pre.scopes by rw [hpre.rest],
    show pre₂'.clientId = pre₂.clientId by rw [hpre₂.rest],
    show pre₂'.scopes = pre₂.scopes by rw [hpre₂.rest]]

theorem Pools.find?_eq {pool pool' : Pool} {key key' : Bytes} (h : σ.Pools pool pool')
    (hkey : σ.Keys key key') : pool'.find? key' = pool.find? key := by
  induction h with
  | nil => rfl
  | @cons entry entry' rest rest' hentry _ ih =>
      obtain ⟨k, line⟩ := entry
      obtain ⟨k', line'⟩ := entry'
      obtain ⟨hkeys, hline⟩ := hentry
      simp only [Pool.find?, hkeys.eq_iff hkey, ih, show line = line' from hline]

theorem Pools.remove {pool pool' : Pool} {key key' : Bytes} (h : σ.Pools pool pool')
    (hkey : σ.Keys key key') : σ.Pools (pool.remove key) (pool'.remove key') := by
  induction h with
  | nil => exact .nil
  | @cons entry entry' rest rest' hentry _ ih =>
      have hsame : (entry.1 != key) = (entry'.1 != key') := by
        rw [bne, bne, Bool.eq_iff_iff]
        simpa using not_congr (hentry.1.eq_iff hkey)
      simp only [Pool.remove, List.filter_cons, ← hsame]
      split
      · exact .cons hentry ih
      · exact ih

theorem Pools.makeRoom {queue queue' : List Bytes} (capacity : Nat)
    (hqueue : List.Forall₂ σ.Keys queue queue') {pool pool' : Pool} (h : σ.Pools pool pool') :
    List.Forall₂ σ.Keys (Pool.makeRoom capacity queue pool).1
        (Pool.makeRoom capacity queue' pool').1 ∧
      σ.Pools (Pool.makeRoom capacity queue pool).2 (Pool.makeRoom capacity queue' pool').2 := by
  induction hqueue generalizing pool pool' with
  | nil => exact ⟨.nil, h⟩
  | cons holdest hrest ih =>
      rw [Pool.makeRoom, Pool.makeRoom, h.length_eq]
      split
      · exact ih (h.remove holdest)
      · exact ⟨.cons holdest hrest, h⟩

theorem Pools.insert {pool pool' : Pool} {key key' : Bytes} (h : σ.Pools pool pool')
    (hkey : σ.Keys key key') (line : Line) :
    σ.Pools (pool.insert key line) (pool'.insert key' line) :=
  List.rel_append h (.cons ⟨hkey, rfl⟩ .nil)

end

/-! ## Worlds -/

/-- Worlds are the same but for secrets. -/
structure Worlds (σ : Pairing) (world world' : World) : Prop where
  now : world.now = world'.now
  journal : world.journal = world'.journal
  released : world.released = world'.released
  agenda : world.agenda = world'.agenda
  sent : List.Forall₂ σ.Exchanges world.sent world'.sent
  grants : List.Forall₂ σ.GrantPairs world.grants world'.grants
  pool : σ.Pools world.pool world'.pool
  filed : List.Forall₂ σ.Keys world.filed world'.filed

section

variable {σ : Pairing} {world world' : World}

theorem Worlds.empty : σ.Worlds {} {} :=
  ⟨rfl, rfl, rfl, rfl, .nil, .nil, .nil, .nil⟩

theorem Worlds.canceled_eq (h : σ.Worlds world world') (caller : Caller) :
    world'.canceled caller = world.canceled caller := by
  rw [World.canceled, World.canceled, h.now, h.agenda]

theorem Worlds.note (h : σ.Worlds world world') (level : Journal.Level) (message : Bytes) :
    σ.Worlds (world.note level message) (world'.note level message) :=
  { h with journal := by rw [World.note, World.note, h.journal] }

theorem Worlds.advanceTo (h : σ.Worlds world world') (instant : Instant) :
    σ.Worlds (world.advanceTo instant) (world'.advanceTo instant) :=
  { h with now := by rw [World.advanceTo, World.advanceTo, h.now] }

theorem Worlds.grant (h : σ.Worlds world world') (place : Nat) :
    σ.GrantPairs (world.grant place) (world'.grant place) := by
  rw [World.grant, World.grant]
  have hgrants := forall₂_getElem? h.grants place
  generalize world.grants[place]? = grant at hgrants ⊢
  generalize world'.grants[place]? = grant' at hgrants ⊢
  cases hgrants with
  | none => exact .opened ⟨rfl, σ.noSecret⟩
  | some hgrants => exact hgrants

theorem Worlds.setGrant (h : σ.Worlds world world') (place : Nat) {grant grant' : Grant}
    (hgrant : σ.GrantPairs grant grant') :
    σ.Worlds (world.setGrant place grant) (world'.setGrant place grant') :=
  { h with grants := forall₂_set h.grants place hgrant }

theorem Worlds.openGrant (h : σ.Worlds world world') {credentials credentials' : Credentials}
    (hcredentials : σ.CredentialPairs credentials credentials') :
    (world'.openGrant credentials').1 = (world.openGrant credentials).1 ∧
      σ.Worlds (world.openGrant credentials).2 (world'.openGrant credentials').2 := by
  refine ⟨h.grants.length_eq.symm, { h with grants := ?_ }⟩
  exact List.rel_append h.grants (.cons (.opened hcredentials) .nil)

end

end Pairing

end BearerAuth
