import FlowEdit.Text.Basic

/-!
The path of a URI: what is left when scheme, authority, query, fragment and parameters are taken
away. Any text is accepted; only an authority with an unpaired bracket is refused. Two finer checks
of an authority that is not empty are left out: that a host in brackets is an address, and that no
character outside ASCII has a compatibility form that would end the authority.
-/

namespace FlowEdit

inductive UriError
  | unpairedBracket
  deriving DecidableEq, Repr

def UriError.message : UriError → String
  | .unpairedBracket => "Invalid IPv6 URL"

namespace Uri

def isTabOrLineEnd (c : Char) : Bool := ['\t', '\r', '\n'].contains c

/-- Leading controls and spaces do not belong to a URI, nor do tabs and line ends anywhere. -/
def clean (t : Text) : Text := (t.dropWhile (·.toNat ≤ 0x20)).filter (!isTabOrLineEnd ·)

def isSchemeChar (c : Char) : Bool := c.isAlphanum || ['+', '-', '.'].contains c

/-- The scheme, in lower case, and the rest behind its colon. Without a scheme, the empty one. -/
def splitScheme (t : Text) : Text × Text :=
  let scheme := t.upToChar ':'
  match t.drop scheme.length with
  | ':' :: rest =>
    if scheme.head?.any Char.isAlpha && scheme.all isSchemeChar then
      (scheme.map Char.toLower, rest)
    else ([], t)
  | _ => ([], t)

def endsAuthority (c : Char) : Bool := ['/', '?', '#'].contains c

/-- What follows the authority, if the text begins with one. Of the authority itself no more is
asked than that its brackets come together. -/
def dropAuthority : Text → Except UriError Text
  | '/' :: '/' :: t =>
    let authority := t.takeWhile (!endsAuthority ·)
    if authority.contains '[' != authority.contains ']' then .error .unpairedBracket
    else .ok (t.dropWhile (!endsAuthority ·))
  | t => .ok t

/-- Schemes whose paths may end in parameters; paths without a scheme may, too. -/
def parameterSchemes : List Text :=
  ["", "ftp", "hdl", "prospero", "http", "https", "shttp", "rtsp", "rtspu", "imap", "sip", "sips",
   "mms", "sftp", "tel"].map String.toList

/-- Parameters stand behind a semicolon in the last segment of a path. -/
def dropParameters (path : Text) : Text :=
  let segment := path.afterLast '/'
  path.take (path.length - segment.length) ++ segment.upToChar ';'

def path (t : Text) : Except UriError Text := do
  let (scheme, rest) := splitScheme (clean t)
  let path := ((← dropAuthority rest).upToChar '#').upToChar '?'
  return if parameterSchemes.contains scheme then dropParameters path else path

end Uri

end FlowEdit
