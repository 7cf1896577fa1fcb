import BearerAuth.Bytes

/-!
# Scopes and how they are matched

A scope is a byte string, read as segments between dots.  A strategy says
when the scopes granted to a token cover a required one:

    exact        the required scope itself is granted
    hierarchic   a grant is the required scope or a parent of it:
                 `mail` covers `mail.read`, never the other way round
    wildcard     a grant may have `*` for any non-empty segment, and a `*`
                 at its end for any number of further ones
    none         nothing is matched here

Empty segments are segments like all others.
-/

namespace BearerAuth

namespace Scope

/-- How required scopes are matched against granted ones. -/
inductive Strategy where
  | none
  | exact
  | hierarchic
  | wildcard
  deriving DecidableEq, Repr

def Strategy.name : Strategy → Bytes
  | .none => utf8 "none"
  | .exact => utf8 "exact"
  | .hierarchic => utf8 "hierarchic"
  | .wildcard => utf8 "wildcard"

/-- The strategy of a name, in any case of its letters.  The empty name
stands for `none`. -/
def Strategy.ofName (name : Bytes) : Option Strategy :=
  let name := Bytes.toLower name
  if name.isEmpty || name == Strategy.none.name then some .none
  else if name == Strategy.exact.name then some .exact
  else if name == Strategy.hierarchic.name then some .hierarchic
  else if name == Strategy.wildcard.name then some .wildcard
  else Option.none

def segments (scope : Bytes) : List Bytes := Bytes.split Ascii.point scope

/-- The segment that stands for others. -/
def star : Bytes := utf8 "*"

/-! ## One grant -/

/-- Walking both lists of segments at once, the grant's run out first and
agree up to there. -/
def isParent : List Bytes → List Bytes → Bool
  | [], _ :: _ => true
  | _, [] => false
  | g :: grant, r :: required => g == r && isParent grant required

/-- A grant covers a required scope that it equals or is a parent of.  A
grant longer than the required scope is never its parent. -/
def coversHierarchic (required grant : Bytes) : Bool :=
  grant == required ||
    (grant.length ≤ required.length && isParent (segments grant) (segments required))

/-- One segment of a grant covers one of a required scope. -/
def segmentCovers (g r : Bytes) : Bool := (g == star && !r.isEmpty) || g == r

/-- The segments of a grant cover those of a required scope: one by one as
long as both last, and where the grant is the shorter one its last segment
has to be a star. -/
def segmentsCover : List Bytes → List Bytes → Bool
  | [], _ => true
  | _ :: _, [] => false
  | [g], r :: required => (required.isEmpty || g == star) && segmentCovers g r
  | g :: next :: grant, r :: required => segmentCovers g r && segmentsCover (next :: grant) required

/-- A grant covers a required scope segment by segment. -/
def coversWildcard (required grant : Bytes) : Bool :=
  segmentsCover (segments grant) (segments required)

/-! ## Lists of grants -/

/-- Whether granted scopes cover a required one, for the strategies that
match scopes at all. -/
def Strategy.matcher? : Strategy → Option (List Bytes → Bytes → Bool)
  | .none => Option.none
  | .exact => some fun granted required => granted.any (· == required)
  | .hierarchic => some fun granted required => granted.any (coversHierarchic required)
  | .wildcard => some fun granted required => granted.any (coversWildcard required)

end Scope

end BearerAuth
