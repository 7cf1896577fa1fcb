import BearerAuth.Proofs.Grant.Provenance
import BearerAuth.Transport.Authorized

/-!
# Acquiring tokens and using them

Over the wire a caller that acquires a token sends the token request of the
grant and nothing else, and a caller that may go on finds a token there
(`turnFrom_keeps`).  What an authorized exchange sends besides is its own request
with a token that was issued on the credentials of the grant
(`authorized_honours`).
-/

namespace BearerAuth

open Transport

namespace Acquire

/-- At a place there is a grant with a token. -/
def HasToken (w : World) (place : Nat) : Prop :=
  ∃ g, w.grants[place]? = some g ∧ g.token ≠ []

/-- A caller that fetches waits for an answer to its own token request; one that
waits for another's fetch has seen no more publications than there were, and
when that has succeeded there is a token. -/
def Mine (peer : Peer) (place : Nat) (credentials : Credentials) :
    Phase Reply → World → Prop
  | .fetching reply, w => FromPeer peer w.sent credentials.tokenUrl credentials.request reply
  | .joining seen, w | .awaiting seen, w => ∃ g, w.grants[place]? = some g ∧ seen ≤ g.published
  | .returning ending, w => ending = .refreshed → HasToken w place

/-- A caller that may go on finds a token. -/
def Ready (place : Nat) (acquired : Result) (w : World) : Prop :=
  acquired = .ok () → HasToken w place

section

variable {peer : Peer} {own : List Exchange → Exchange → Prop} {place : Nat}
  {credentials : Credentials} {caller : Caller} {w w' : World}

theorem HasToken.grows (h : HasToken w place) (hgrows : World.Grows own w w') :
    HasToken w' place := by
  obtain ⟨g, hg, hne⟩ := h
  obtain ⟨g', hg', hages⟩ := hgrows.grants hg
  exact ⟨g', hg', hages.token hne⟩

theorem Mine.grows {phase : Phase Reply} (h : Mine peer place credentials phase w)
    (hgrows : World.Grows own w w') : Mine peer place credentials phase w' := by
  have hseen {seen : Nat} (h : ∃ g, w.grants[place]? = some g ∧ seen ≤ g.published) :
      ∃ g, w'.grants[place]? = some g ∧ seen ≤ g.published := by
    obtain ⟨g, hg, hseen⟩ := h
    obtain ⟨g', hg', hages⟩ := hgrows.grants hg
    exact ⟨g', hg', Nat.le_trans hseen hages.published⟩
  cases phase with
  | fetching reply => exact FromPeer.grows h hgrows
  | joining seen => exact hseen h
  | awaiting seen => exact hseen h
  | returning ending => exact fun hrefreshed => (h hrefreshed).grows hgrows

/-- The outcome of a fetch is kept in the grant that asked for it. -/
theorem publish_extends (h : GrantsSound peer w) (hplace : HasGrant w place credentials)
    {outcome : Except Failure IssuedToken}
    (houtcome : ∀ issued, outcome = .ok issued →
      issued.token ≠ [] ∧ Issued peer w.sent credentials issued.token) :
    Extends peer own w (publish place outcome w) ∧
      Ready place (outcome.map fun _ => ()) (publish place outcome w) := by
  obtain ⟨g, hg, rfl⟩ := hplace
  have hset (level : Journal.Level) (message : Bytes) : Extends peer own (w.note level message)
      ((w.note level message).setGrant place (g.publish w.now outcome)) := by
    have hnoted : GrantsSound peer (w.note level message) := h.of_same rfl rfl
    cases outcome with
    | ok issued =>
        obtain ⟨hne, hissued⟩ := houtcome issued rfl
        exact .setGrant hnoted hg ⟨rfl, Nat.le_succ _, fun _ => hne⟩ (fun _ => hissued)
          fun _ _ => hne
    | error failure =>
        have hold := h.issued hg
        exact .setGrant hnoted hg ⟨rfl, Nat.le_succ _, id⟩ hold fun _ hnone => by cases hnone
  rw [publish_eq hg]
  refine ⟨(Extends.note h _ _).trans ((hset _ _).trans (.of_same (hset _ _).sound rfl rfl rfl)), ?_⟩
  refine fun hok => ⟨g.publish w.now outcome, getElem?_setGrant hg, ?_⟩
  cases outcome with
  | ok issued => exact (houtcome issued rfl).1
  | error failure => cases hok

theorem finish_keeps (h : GrantsSound peer w) (hplace : HasGrant w place credentials)
    {reply : Reply} (hreply : FromPeer peer w.sent credentials.tokenUrl credentials.request reply) :
    (finish place reply w : Stretch (Phase Reply) Result).Keeps (Extends peer own)
      (Mine peer place credentials) (Ready place) w := by
  refine publish_extends h hplace ?_
  intro issued hok
  simp only [IssuedToken.ofReply] at hok
  split at hok
  · cases hok
  · next response =>
      split at hok
      · next token htoken =>
          obtain rfl := Except.ok.inj hok
          exact ⟨token_ne_nil htoken, response, token.lifetime, hreply response rfl, htoken⟩
      · cases hok

/-- A turn of a caller sends the token request at most, and when the caller may go on after it
there is a token. -/
theorem turnFrom_keeps
    (hown : ∀ sent now, own sent ⟨now, credentials.tokenUrl, credentials.request⟩)
    (h : GrantsSound peer w) (hplace : HasGrant w place credentials)
    {before : Option (Phase (wire peer).Phase)}
    (hmine : ∀ phase, before = some phase → Mine peer place credentials phase w) :
    (turnFrom (wire peer) place caller before w).Keeps (Extends peer own)
      (Mine peer place credentials) (Ready place) w := by
  obtain ⟨g, hg, rfl⟩ := id hplace
  have hrefl : Extends peer own w w := .refl h
  have hbegun : Extends peer own w (w.setGrant place g.beginFetch) :=
    .touch h hg rfl rfl rfl rfl
  have hstarts := @wire_start_keeps _ _ _ caller _ _ hbegun.sound
    (hown (w.setGrant place g.beginFetch).sent w.now)
  obtain ⟨exchange?, reply?, hturn⟩ := turnFrom_turn caller hg before
  generalize turnFrom (wire peer) place caller before w = stretch at hturn
  cases hturn with
  | serves hwants hfresh =>
      refine ⟨hrefl, fun _ => ⟨g, hg, fun hnil => ?_⟩⟩
      simp [Grant.isFresh, hnil] at hfresh
  | sees hwants hbusy => exact ⟨hrefl, g, hg, Nat.le_refl _⟩
  | asks hfetches hstart =>
      rw [hstart] at hstarts
      exact ⟨hbegun.trans hstarts.1, hstarts.2⟩
  | exchanges hfetches hstart =>
      rw [hstart] at hstarts
      obtain ⟨hext, hready⟩ := @finish_keeps _ own _ _ _ hstarts.1.sound
        ((hbegun.trans hstarts.1).hasGrant hplace) _ hstarts.2
      exact ⟨(hbegun.trans hstarts.1).trans hext, hready⟩
  | continues hresume =>
      have hkeeps := @wire_resume_keeps _ own _ caller _ _ _ h (hmine _ rfl)
      rw [hresume] at hkeeps
      exact hkeeps
  | receives hresume =>
      have hkeeps := @wire_resume_keeps _ own _ caller _ _ _ h (hmine _ rfl)
      rw [hresume] at hkeeps
      obtain ⟨hext, hready⟩ := @finish_keeps _ own _ _ _ hkeeps.1.sound
        (hkeeps.1.hasGrant hplace) _ hkeeps.2
      exact ⟨hkeeps.1.trans hext, hready⟩
  | joins => exact ⟨.touch h hg rfl rfl rfl rfl, _, getElem?_setGrant hg, Nat.le_refl _⟩
  | @late seen hne => exact ⟨hrefl, hmine (.joining seen) rfl⟩
  | hears hne =>
      -- There has been a publication, so without a failure there is a token.
      refine ⟨hrefl, fun hrefreshed => ⟨g, hg, ?_⟩⟩
      obtain ⟨g₁, hg₁, hseen⟩ := hmine _ rfl
      obtain rfl := Option.some.inj (hg.symm.trans hg₁)
      exact h.published hg (by omega) (Ending.ofGrant_eq_refreshed hrefreshed)
  | leaves =>
      exact ⟨.touch h hg rfl rfl rfl rfl, fun hrefreshed =>
        absurd hrefreshed (Ending.ofCaller_ne_refreshed w caller)⟩
  | @ends ending result hends =>
      refine ⟨hrefl, fun hok => hmine _ rfl ?_⟩
      exact Ending.eq_refreshed_of_result (hok ▸ hends)

end

end Acquire

/-! ## Authorized exchanges -/

namespace Transport

def bearing (token : Bytes) (request : Request) : Request :=
  { request with
    headers := request.headers.set (utf8 "Authorization") (utf8 "Bearer " ++ token) }

/-- A token is being acquired for the request; there is one; the request bears one that was
issued; or it is under way. -/
def Authorized.Mine (peer : Peer) (place : Nat) (credentials : Credentials) (url : Url)
    (request : Request) : Authorized.Phase Reply → World → Prop
  | .acquiring url' request' phase, w =>
      url' = url ∧ request' = request ∧ Acquire.Mine peer place credentials phase w
  | .acquired url' request', w => url' = url ∧ request' = request ∧ Acquire.HasToken w place
  | .bearing url' request', w => url' = url ∧
      ∃ token, Issued peer w.sent credentials token ∧ request' = Transport.bearing token request
  | .sending _, _ => True

section

variable {peer : Peer} {own : List Exchange → Exchange → Prop} {place : Nat}
  {credentials : Credentials} {caller : Caller} {url : Url} {request : Request} {w w' : World}

theorem Authorized.Mine.grows {phase : Authorized.Phase Reply}
    (h : Authorized.Mine peer place credentials url request phase w)
    (hgrows : World.Grows own w w') :
    Authorized.Mine peer place credentials url request phase w' := by
  cases phase with
  | acquiring url' request' phase => exact ⟨h.1, h.2.1, h.2.2.grows hgrows⟩
  | acquired url' request' => exact ⟨h.1, h.2.1, h.2.2.grows hgrows⟩
  | bearing url' request' =>
      obtain ⟨hurl, token, hissued, hrequest⟩ := h
      obtain ⟨new, hnew, -⟩ := hgrows.sent
      exact ⟨hurl, token, hnew ▸ hissued.append new, hrequest⟩
  | sending reply => exact trivial

theorem authorize_eq {g : Grant} (h : g.token ≠ []) (request : Request) :
    Authorized.authorize g request = bearing g.token request := by
  simp [Authorized.authorize, Grant.headers, bearing, h]

/-- What goes out in an authorized exchange is the token request of the grant,
or the request with a token issued on its credentials. -/
theorem authorized_honours
    (htoken : ∀ sent now, own sent ⟨now, credentials.tokenUrl, credentials.request⟩)
    (hsend : ∀ sent now token, Issued peer sent credentials token →
      own sent ⟨now, url, bearing token request⟩) :
    (authorized (wire peer) place).Honours caller url request
      (fun w => GrantsSound peer w ∧ HasGrant w place credentials) (Extends peer own)
      (Authorized.Mine peer place credentials url request) (fun _ _ => True) := by
  have hproceed {w : World} (h : GrantsSound peer w) {acquired : Acquire.Result}
      (hready : Acquire.Ready place acquired w) :
      (Authorized.proceed url request acquired w : Stretch (Authorized.Phase Reply) Reply).Keeps
        (Extends peer own) (Authorized.Mine peer place credentials url request)
        (fun _ _ => True) w := by
    cases acquired with
    | error failure => exact ⟨.refl h, trivial⟩
    | ok ready => exact ⟨.refl h, rfl, rfl, hready rfl⟩
  have hacquired {w : World} (hw : GrantsSound peer w ∧ HasGrant w place credentials)
      (before : Option (Acquire.Phase Reply))
      (hmine : ∀ phase, before = some phase → Acquire.Mine peer place credentials phase w) :
      ((Acquire.turnFrom (wire peer) place caller before w).andThen (.acquiring url request)
        (Authorized.proceed url request)).Keeps (Extends peer own)
          (Authorized.Mine peer place credentials url request) (fun _ _ => True) w :=
    (Acquire.turnFrom_keeps htoken hw.1 hw.2 hmine).andThen Extends.trans
      (fun _ _ _ hmine => ⟨rfl, rfl, hmine⟩) fun _ _ hext hready => hproceed hext.sound hready
  constructor
  · intro w hw
    exact hacquired hw none nofun
  · intro phase w hw hmine
    cases phase with
    | acquiring url' request' phase =>
        obtain ⟨rfl, rfl, hphase⟩ := hmine
        refine hacquired hw (some phase) ?_
        rintro _ ⟨⟩
        exact hphase
    | acquired url' request' =>
        obtain ⟨rfl, rfl, g, hg, hne⟩ := hmine
        obtain ⟨g', hg', rfl⟩ := hw.2
        obtain rfl := Option.some.inj (hg.symm.trans hg')
        refine ⟨.refl hw.1, rfl, g.token, hw.1.issued hg hne, ?_⟩
        rw [grant_eq hg, authorize_eq hne]
    | bearing url' request' =>
        obtain ⟨rfl, token, hissued, rfl⟩ := hmine
        exact (wire_start_keeps hw.1 (hsend w.sent w.now token hissued)).andThen Extends.trans
          (fun _ _ _ _ => trivial) fun _ _ hext _ => ⟨.refl hext.sound, trivial⟩
    | sending reply => exact ⟨.refl hw.1, trivial⟩

end

end Transport

end BearerAuth
