import BearerAuth.Bytes

/-!
# Absolute URLs

Only `http` and `https` URLs with a host are accepted.  What is kept of one
is what an exchange needs: the scheme in lower case, the host without
brackets, the port as a number in decimal, and the target of the request
line, which is the path with the query.  User information is refused and a
fragment dropped.
-/

namespace BearerAuth

/-- The parts of an absolute URL. -/
structure Url where
  scheme : Bytes := []
  host : Bytes := []
  port : Bytes := []
  target : Bytes := []
  deriving DecidableEq, Repr

namespace Url

/-! ## Faults -/

/-- Why a text is not an acceptable URL. -/
inductive Fault where
  | notAbsolute
  | unsupportedScheme (scheme : Bytes)
  | userInfo
  | whitespaceInHost
  | unterminatedLiteral
  | contentAfterLiteral
  | emptyHost
  | invalidPort (text : Bytes)
  deriving DecidableEq, Repr

def Fault.message : Fault → Bytes
  | .notAbsolute => utf8 "URL must be absolute (scheme://host/...)"
  | .unsupportedScheme scheme => utf8 "unsupported URL scheme \"" ++ scheme ++ utf8 "\""
  | .userInfo => utf8 "URL must not carry userinfo"
  | .whitespaceInHost => utf8 "URL host contains whitespace"
  | .unterminatedLiteral => utf8 "unterminated IPv6 literal"
  | .contentAfterLiteral => utf8 "unexpected characters after IPv6 literal"
  | .emptyHost => utf8 "URL host is empty"
  | .invalidPort text => utf8 "invalid URL port \"" ++ text ++ utf8 "\""

/-! ## Printing -/

def defaultPort (scheme : Bytes) : Bytes :=
  if scheme = utf8 "https" then utf8 "443" else utf8 "80"

/-- The host as it stands in a URL: in brackets when it has a colon. -/
def bracketedHost (host : Bytes) : Bytes :=
  if Ascii.colon ∈ host then Ascii.openBracket :: (host ++ [Ascii.closeBracket]) else host

/-- Host and port, without the port that the scheme implies. -/
def authority (url : Url) : Bytes :=
  let host := bracketedHost url.host
  if url.port = defaultPort url.scheme then host else host ++ Ascii.colon :: url.port

def print (url : Url) : Bytes :=
  url.scheme ++ utf8 "://" ++ url.authority ++ url.target

/-! ## Reading -/

/-- What stands before and after the first `://`. -/
def cutScheme : Bytes → Option (Bytes × Bytes)
  | [] => none
  | b :: rest =>
      if (utf8 "://").isPrefixOf (b :: rest) then some ([], (b :: rest).drop 3)
      else (cutScheme rest).map fun parts => (b :: parts.1, parts.2)

def endsAuthority (b : UInt8) : Bool :=
  b == Ascii.slash || b == Ascii.question || b == Ascii.hash

/-- White space that no authority may have. -/
def isGap (b : UInt8) : Bool :=
  b == Ascii.space || b == Ascii.tab || b == Ascii.carriageReturn || b == Ascii.lineFeed

/-- Host and port of an authority, the port empty when none is given.  A host
in brackets ends at the first closing one; any other host ends at the last
colon. -/
def splitAuthority (authority : Bytes) : Except Fault (Bytes × Bytes) :=
  match authority with
  | Ascii.openBracket :: inside => match Bytes.cut Ascii.closeBracket inside with
    | none => .error .unterminatedLiteral
    | some (host, []) => .ok (host, [])
    | some (host, b :: port) =>
        if b = Ascii.colon then .ok (host, port) else .error .contentAfterLiteral
  | _ => match Bytes.cutLast Ascii.colon authority with
    | none => .ok (authority, [])
    | some parts => .ok parts

/-- The number of a port text, when it is one from 1 to 65535. -/
def portNumber? (text : Bytes) : Option Nat :=
  if text.all Bytes.isDigit then
    let n := Bytes.digitsValue text
    if n = 0 ∨ 65535 < n then none else some n
  else none

/-- The port that a port text names; the empty text names the one that the
scheme implies. -/
def resolvePort (scheme text : Bytes) : Except Fault Bytes :=
  if text.isEmpty then .ok (defaultPort scheme)
  else match portNumber? text with
    | none => .error (.invalidPort text)
    | some n => .ok (Bytes.ofNat n)

/-- The target of the request line, from what follows the authority. -/
def resolveTarget (text : Bytes) : Bytes :=
  match text.takeWhile (· != Ascii.hash) with
  | Ascii.slash :: rest => Ascii.slash :: rest
  | other => Ascii.slash :: other

def readScheme (text : Bytes) : Except Fault (Bytes × Bytes) :=
  match cutScheme text with
  | none => .error .notAbsolute
  | some ([], _) => .error .notAbsolute
  | some (name, rest) =>
      let scheme := Bytes.toLower name
      if scheme = utf8 "http" ∨ scheme = utf8 "https" then .ok (scheme, rest)
      else .error (.unsupportedScheme scheme)

/-- The parts of a URL text. -/
def parse (text : Bytes) : Except Fault Url := do
  let (scheme, rest) ← readScheme text
  let authority := rest.takeWhile fun b => !endsAuthority b
  if Ascii.atSign ∈ authority then throw .userInfo
  if authority.any isGap then throw .whitespaceInHost
  let (host, portText) ← splitAuthority authority
  if host.isEmpty then throw .emptyHost
  let port ← resolvePort scheme portText
  .ok { scheme, host, port, target := resolveTarget (rest.drop authority.length) }

end Url

end BearerAuth
