import BearerAuth.Bytes

/-!
# Environment variables

Settings of the process come from its environment; each has a default for
when its variable is not set.
-/

namespace BearerAuth

/-- Variables with their values. -/
abbrev Environment := List (Bytes × Bytes)

namespace Environment

/-- The value of a variable; a value ends at its first NUL. -/
def lookup (environment : Environment) (name : Bytes) : Option Bytes :=
  (environment.find? fun entry => entry.1 == name).map fun entry =>
    Bytes.untilNul entry.2

/-- The value of a variable, or the default when it is not set.  No name and
the empty name are names of no variable. -/
def value (environment : Environment) (name : Option Bytes) (default : Bytes) : Bytes :=
  match name with
  | none => default
  | some [] => default
  | some name => (environment.lookup name).getD default

/-- The values that switch a flag on. -/
def truths : List Bytes := [utf8 "1", utf8 "true", utf8 "TRUE"]

/-- Whether a flag is on: the default decides only when the variable is not
set. -/
def flag (environment : Environment) (name : Option Bytes) (default : Bool) : Bool :=
  truths.contains (environment.value name (if default then utf8 "1" else utf8 "0"))

end Environment

end BearerAuth
