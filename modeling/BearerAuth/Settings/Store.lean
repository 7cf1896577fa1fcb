import BearerAuth.Json.Merge
import BearerAuth.Json.Reader

/-!
# The settings of authenticators

For every authenticator the store holds whether it is enabled and an object
of default settings.  The settings that a rule gives are laid over the
defaults.  An authenticator that has never been mentioned is disabled and has
no defaults.
-/

namespace BearerAuth

namespace Settings

/-- The settings of one authenticator. -/
structure Entry where
  enabled : Bool := false
  defaults : Json.Members := []

/-- The settings of all authenticators, by identifier. -/
abbrev Store := List (Bytes × Entry)

/-- Why settings are refused. -/
inductive Store.Fault where
  | malformedDefaults (id : Bytes) (fault : Json.Fault)
  | defaultsNoObject (id : Bytes)
  | malformedRule (fault : Json.Fault)
  deriving DecidableEq, Repr

def Store.Fault.message : Store.Fault → Bytes
  | .malformedDefaults id fault =>
      utf8 "default configuration of authenticator " ++ id ++ utf8 " is not valid JSON: " ++
        fault.message
  | .defaultsNoObject id =>
      utf8 "default configuration of authenticator " ++ id ++ utf8 " must be a JSON object"
  | .malformedRule fault => utf8 "rule configuration is not valid JSON: " ++ fault.message

namespace Store

def entry (store : Store) (id : Bytes) : Entry :=
  match store with
  | [] => {}
  | (key, found) :: rest => if key = id then found else entry rest id

def put (store : Store) (id : Bytes) (new : Entry) : Store :=
  match store with
  | [] => [(id, new)]
  | (key, old) :: rest => if key = id then (key, new) :: rest else (key, old) :: put rest id new

/-- The defaults that a text stands for: an object, or none when the text is
blank. -/
def readDefaults (id text : Bytes) : Except Fault Json.Members :=
  if Bytes.isBlankText text then .ok []
  else match Json.parse text with
    | .error fault => .error (.malformedDefaults id fault)
    | .ok (.object members) => .ok members
    | .ok _ => .error (.defaultsNoObject id)

/-- Sets an authenticator's flag and defaults, replacing those it had.  A
text that is no object leaves the store as it is. -/
def set (store : Store) (id : Bytes) (enabled : Bool) (text : Bytes) : Except Fault Store :=
  (readDefaults id text).map fun defaults => store.put id { enabled, defaults }

/-- Sets an authenticator's flag and keeps its defaults. -/
def setEnabled (store : Store) (id : Bytes) (enabled : Bool) : Store :=
  store.put id { store.entry id with enabled }

def isEnabled (store : Store) (id : Bytes) : Bool := (store.entry id).enabled

/-- The settings of an authenticator under a rule: the defaults alone when
the rule's text is blank or `null`, and otherwise its value laid over
them. -/
def effective (store : Store) (id text : Bytes) : Except Fault Json :=
  let defaults := Json.object (store.entry id).defaults
  if Bytes.isBlankText text then .ok defaults
  else match Json.parse text with
    | .error fault => .error (.malformedRule fault)
    | .ok .null => .ok defaults
    | .ok rule => .ok (Json.merge defaults rule)

end Store

end Settings

end BearerAuth
