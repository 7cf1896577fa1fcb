import BearerAuth.Settings.Policy

/-!
# The pool of grants

Callers whose policies name the same credentials and the same schedule share
a grant.  The pool remembers which grant serves which of these, up to a
capacity.  A queue beside it has the keys in the order in which they were
filed, and the oldest of them make room for new ones.
-/

namespace BearerAuth

namespace Pool

/-- A part of a key, with its length in front so that no two lists of parts
run into one another. -/
def keyPart (part : Bytes) : Bytes :=
  Bytes.ofNat part.length ++ Ascii.colon :: part

/-- The key of a pre-authorization with its endpoint and a schedule. -/
def key (endpoint : Url) (pre : Settings.PreAuthorization) (schedule : Settings.Schedule) :
    Bytes :=
  keyPart endpoint.print ++ keyPart pre.clientId ++ keyPart pre.clientSecret ++
    pre.scopes.flatMap keyPart ++
    utf8 "|" ++ Bytes.ofInt schedule.baseDelay ++
    utf8 "|" ++ Bytes.ofInt schedule.giveUpAfter

end Pool

/-- What the pool remembers under a key: the place of a grant among all
grants and the schedule of its exchanges. -/
structure Line where
  grant : Nat
  schedule : Settings.Schedule
  deriving DecidableEq, Repr

/-- Keys with their lines. -/
abbrev Pool := List (Bytes × Line)

namespace Pool

def find? (pool : Pool) (key : Bytes) : Option Line :=
  match pool with
  | [] => none
  | (k, line) :: rest => if k = key then some line else find? rest key

def remove (pool : Pool) (key : Bytes) : Pool := pool.filter fun entry => entry.1 != key

/-- Takes keys off the front of the queue, and their lines out of the pool, as
long as there is no room for one more line; there is always room for one.  What
is left of both. -/
def makeRoom (capacity : Nat) : List Bytes → Pool → List Bytes × Pool
  | [], pool => ([], pool)
  | oldest :: queue, pool =>
      if max capacity 1 ≤ pool.length then makeRoom capacity queue (pool.remove oldest)
      else (oldest :: queue, pool)

def insert (pool : Pool) (key : Bytes) (line : Line) : Pool := pool ++ [(key, line)]

end Pool

end BearerAuth
