import BearerAuth.Bytes

/-!
# The journal

Lines of four levels, of which those below a threshold are left out.  A line
names the place it comes from by the last part of a path.
-/

namespace BearerAuth

namespace Journal

inductive Level where
  | debug
  | info
  | warn
  | error
  deriving DecidableEq, Repr

namespace Level

def all : List Level := [.debug, .info, .warn, .error]

def rank : Level → Nat
  | .debug => 0
  | .info => 1
  | .warn => 2
  | .error => 3

def name : Level → Bytes
  | .debug => utf8 "DEBUG"
  | .info => utf8 "INFO"
  | .warn => utf8 "WARN"
  | .error => utf8 "ERROR"

/-- The level of a name in any case; names of no level stand for `info`. -/
def ofName (name : Bytes) : Level :=
  let name := Bytes.toLower name
  if name = utf8 "debug" then .debug
  else if name = utf8 "warn" ∨ name = utf8 "warning" then .warn
  else if name = utf8 "error" then .error
  else .info

/-- Lines of this level are kept at a threshold. -/
def enabled (level threshold : Level) : Bool := threshold.rank ≤ level.rank

end Level

/-- What the library notes while it works. -/
structure Entry where
  level : Level
  message : Bytes
  deriving DecidableEq, Repr

/-- An entry without its place: the level in brackets and the message. -/
def Entry.text (entry : Entry) : Bytes :=
  utf8 "[" ++ entry.level.name ++ utf8 "] " ++ entry.message

/-! ## Files -/

/-- The part of a path behind its last slash or backslash; the path ends at
its first NUL. -/
def baseName (path : Bytes) : Bytes :=
  let path := Bytes.untilNul path
  (path.reverse.takeWhile fun b => b != Ascii.slash && b != Ascii.backslash).reverse

/-- A line with its place. -/
def line (level : Level) (path : Bytes) (number : Nat) (message : Bytes) : Bytes :=
  utf8 "[" ++ level.name ++ utf8 "] " ++ baseName path ++ utf8 ":" ++ Bytes.ofNat number ++
    utf8 ": " ++ message

/-- The line that marks every opening of a file. -/
def openedMark : Bytes := utf8 "=== log opened ==="

/-- A journal file: the lowest level it takes, whether it is open, and its
lines. -/
structure File where
  threshold : Level := .info
  isOpen : Bool := false
  lines : List Bytes := []
  deriving DecidableEq, Repr

namespace File

/-- Opens the file again, at its end. -/
def reopen (file : File) : File :=
  { file with isOpen := true, lines := file.lines ++ [openedMark] }

def close (file : File) : File := { file with isOpen := false }

/-- Adds a line when its level is kept and the file is open.  A message with
line feeds takes several lines of the file. -/
def write (file : File) (level : Level) (path : Bytes) (number : Nat) (message : Bytes) : File :=
  if level.enabled file.threshold && file.isOpen then
    { file with
      lines := file.lines ++ Bytes.split Ascii.lineFeed (line level path number message) }
  else file

end File

/-- There can be a file at a path: its directory is there, and it is no
directory itself.  The path ends at its first NUL. -/
def canHold (directories : List Bytes) (path : Bytes) : Bool :=
  let path := Bytes.untilNul path
  match Bytes.cutLast Ascii.slash path with
  | none => !directories.contains path
  | some (directory, name) =>
      directories.contains directory && !name.isEmpty && !directories.contains path

/-- A file can be opened at a path that can hold one; the empty path closes
the file, which always succeeds. -/
def canOpen (directories : List Bytes) (path : Bytes) : Bool :=
  path.isEmpty || canHold directories path

end Journal

end BearerAuth
