import BearerAuth.Json.Basic

/-!
# Merging JSON values

Two objects merge key by key, to any depth; anything else is replaced by what
overrides it.
-/

namespace BearerAuth

namespace Json

mutual

/-- `overrides` laid over `base`. -/
def merge (base : Json) : Json → Json
  | .object overrides => match base with
    | .object members => .object (mergeMembers members overrides)
    | _ => .object overrides
  | other => other

/-- The members of one object laid over those of another, one at a time. -/
def mergeMembers (base : Members) : List (Bytes × Json) → Members
  | [] => base
  | (key, value) :: rest =>
      mergeMembers (base.put key (match base.get? key with
        | some old => merge old value
        | none => value)) rest

end

/-- The value at a path of object keys. -/
def at? : Json → List Bytes → Option Json
  | value, [] => some value
  | .object members, key :: path => match Members.get? members key with
    | some value => at? value path
    | none => none
  | _, _ :: _ => none

end Json

end BearerAuth
