import BearerAuth.Grant.Acquire

/-!
# Authorized exchanges

A transport that first acquires a token and then sends the request with it.
The `Authorization` header that the request may have had is replaced.  That a
token has been acquired, that the request gets it and that the request is sent
are turns of their own.
-/

namespace BearerAuth

namespace Transport

namespace Authorized

/-- Where an authorized exchange stands: a token is being acquired for a
request, or has been, or the request bears it, or is under way. -/
inductive Phase (φ : Type) where
  | acquiring (url : Url) (request : Request) (phase : Acquire.Phase φ)
  | acquired (url : Url) (request : Request)
  | bearing (url : Url) (request : Request)
  | sending (phase : φ)

/-- A request with the headers of a grant. -/
def authorize (grant : Grant) (request : Request) : Request :=
  { request with
    headers := grant.headers.foldl (fun headers header => headers.set header.1 header.2)
      request.headers }

/-- What follows once a token has been acquired, or could not be. -/
def proceed {φ : Type} (url : Url) (request : Request) (result : Acquire.Result)
    (world : World) : Stretch (Phase φ) Reply :=
  match result with
  | .error failure => (.done (.error failure), world)
  | .ok () => .yield (.acquired url request) world

/-- The request gets the token that is cached now. -/
def bear {φ : Type} (place : Nat) (url : Url) (request : Request) (world : World) :
    Stretch (Phase φ) Reply :=
  .yield (.bearing url (authorize (world.grant place) request)) world

/-- The request is handed to the transport as it is. -/
def send (base : Transport) (caller : Caller) (url : Url) (request : Request) (world : World) :
    Stretch (Phase base.Phase) Reply :=
  (base.start caller url request world).andThen .sending fun reply world => (.done reply, world)

end Authorized

/-- Exchanges over `base` that carry the token of the grant at `place`. -/
def authorized (base : Transport) (place : Nat) : Transport where
  Phase := Authorized.Phase base.Phase
  start caller url request world :=
    (Acquire.start base place caller world).andThen (.acquiring url request)
      (Authorized.proceed url request)
  resume caller phase world := match phase with
    | .acquiring url request phase =>
        (Acquire.resume base place caller phase world).andThen (.acquiring url request)
          (Authorized.proceed url request)
    | .acquired url request => Authorized.bear place url request world
    | .bearing url request => Authorized.send base caller url request world
    | .sending phase =>
        (base.resume caller phase world).andThen .sending fun reply world => (.done reply, world)

end Transport

end BearerAuth
