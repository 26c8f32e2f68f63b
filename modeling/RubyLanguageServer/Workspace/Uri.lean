import RubyLanguageServer.Text.Quoted
import RubyLanguageServer.Text.Utf8
import RubyLanguageServer.Workspace.Address
import RubyLanguageServer.Workspace.Path
/-!
# File URIs

A path becomes a URI by writing every byte of its UTF-8 form that is not unreserved as a percent
sign and two hexadecimal digits. A URI is split into scheme, authority and path by the general URL
rules before its path is read back. The authority is a host, with a user before and a port behind
it; brackets in it must hold an internet address.
-/
namespace RubyLanguageServer

namespace Uri

/-- A character that stands for itself in a URI's path. -/
def isUnreserved (b : UInt8) : Bool :=
  let c := CodePoint.ofNat b.toNat
  c.isLetter || c.isDigit || c = '_' || c = '.' || c = '-' || c = '~' || c = '/'

def quoteByte (b : UInt8) : Text :=
  if isUnreserved b then [.ofNat b.toNat]
  else ['%', .hexDigitUpper (b.toNat / 16), .hexDigitUpper (b.toNat % 16)]

/-- The URI of a path, as seen from the working directory. -/
def ofPath (current path : Text) : Except Utf8.LoneSurrogates Text := do
  let bytes ← Utf8.encode (Path.absolute current path)
  return "file://" ++ bytes.flatMap quoteByte

inductive Rejection where
  | notFile (uri : Text)
  | brackets
  | laterAddress
  | version4
  | notAddress (host : Text)
  | badAuthority (authority : Text)
deriving DecidableEq, Repr

def Rejection.message : Rejection → Text
  | .notFile uri => "Not a file URI: " ++ uri
  | .brackets => "Invalid IPv6 URL"
  | .laterAddress => "IPvFuture address is invalid"
  | .version4 => "An IPv4 address cannot be in brackets"
  | .notAddress host => host.quoted ++ " does not appear to be an IPv4 or IPv6 address"
  | .badAuthority authority =>
    "netloc '" ++ authority ++ "' contains invalid characters under NFKC normalization"

/-- The characters whose compatibility form has a slash, question mark, number sign, at sign or
colon. -/
def delimiterLike : List Nat := [
  0x2047, 0x2048, 0x2049, 0x2100, 0x2101, 0x2105, 0x2106, 0x2a74, 0xfe13, 0xfe16, 0xfe55, 0xfe56,
  0xfe5f, 0xfe6b, 0xff03, 0xff0f, 0xff1a, 0xff1f, 0xff20]

def isSchemeChar (c : CodePoint) : Bool :=
  c.isLetter || c.isDigit || c = '+' || c = '-' || c = '.'

/-- The scheme in small letters and what follows its colon; without a scheme, all of the URI. -/
def splitScheme (uri : Text) : Text × Text :=
  let isColon (c : CodePoint) : Bool := c = ':'
  match uri.takeWhile (!isColon ·), uri.dropWhile (!isColon ·) with
  | c :: cs, _ :: rest =>
    if c.isLetter && cs.all isSchemeChar then (Text.toLower (c :: cs), rest) else ([], uri)
  | _, _ => ([], uri)

/-- The authority behind two slashes and what follows it; without one, all of the text. -/
def splitAuthority (t : Text) : Text × Text :=
  match t.after? "//" with
  | none => ([], t)
  | some rest =>
    let isEnd (c : CodePoint) : Bool := c = '/' || c = '?' || c = '#'
    (rest.takeWhile (!isEnd ·), rest.dropWhile (!isEnd ·))

/-- The host of an authority with brackets. The user is cut off at the last at sign. Nothing may
stand before the bracket, and behind it only a port; without a bracket the host ends at the port. -/
def bracketedHost (authority : Text) : Except Rejection Text :=
  let isColon (c : CodePoint) : Bool := c = ':'
  let place : Text := (authority.reverse.takeWhile (· ≠ CodePoint.ofChar '@')).reverse
  match place.dropWhile (· ≠ CodePoint.ofChar '[') with
  | [] => .ok (place.takeWhile (!isColon ·))
  | _ :: inner =>
    if place.head? ≠ some (CodePoint.ofChar '[') then .error .brackets
    else
      match inner.dropWhile (· ≠ CodePoint.ofChar ']') with
      | _ :: c :: _ =>
        if isColon c then .ok (inner.takeWhile (· ≠ CodePoint.ofChar ']')) else .error .brackets
      | _ => .ok (inner.takeWhile (· ≠ CodePoint.ofChar ']'))

/-- Refuses a host that is no address of version 6 or later. -/
def checkAddress (host : Text) : Except Rejection Unit :=
  if host.head? = some (CodePoint.ofChar 'v') then
    if Address.isLater host then .ok () else .error .laterAddress
  else if Address.isVersion4 host then .error .version4
  else if Address.isVersion6 host then .ok ()
  else .error (.notAddress host)

/-- Refuses an authority with only one kind of bracket or with brackets around no address, and one
that would change its meaning when normalized. -/
def checkAuthority (authority : Text) : Except Rejection Unit := do
  let opens := authority.contains (CodePoint.ofChar '[')
  let closes := authority.contains (CodePoint.ofChar ']')
  if opens != closes then .error .brackets
  else
    if opens then checkAddress (← bracketedHost authority)
    if authority.any fun c => delimiterLike.contains c.val then .error (.badAuthority authority)
    else .ok ()

/-- The bytes that an ASCII text denotes; a percent sign without two digits stands for itself. -/
def unquoteBytes : Text → Bytes
  | [] => []
  | c :: cs =>
    if c = '%' then
      match cs with
      | a :: b :: rest =>
        match a.hexValue?, b.hexValue? with
        | some m, some n => .ofNat (m * 16 + n) :: unquoteBytes rest
        | _, _ => .ofNat c.val :: unquoteBytes (a :: b :: rest)
      | cs => .ofNat c.val :: unquoteBytes cs
    else .ofNat c.val :: unquoteBytes cs

/-- The text that a URI's path denotes. Each stretch of ASCII is decoded on its own. -/
def unquote : Text → Text
  | [] => []
  | c :: cs =>
    if c.isAscii then
      Utf8.decodeLossy (unquoteBytes (c :: cs.takeWhile CodePoint.isAscii)) ++
        unquote (cs.dropWhile CodePoint.isAscii)
    else c :: unquote cs
termination_by t => t.length
decreasing_by
  · have hle := (List.dropWhile_suffix (l := cs) CodePoint.isAscii).length_le
    rw [List.length_cons]
    omega
  · exact Nat.lt_succ_self _

/-- The URI without control characters and spaces at its beginning, and without tabs and line ends
anywhere. -/
def tidied (uri : Text) : Text :=
  let isLeading (c : CodePoint) : Bool := c.val ≤ 0x20
  let isIgnored (c : CodePoint) : Bool := c.val == 0x9 || c.val == 0xa || c.val == 0xd
  (uri.dropWhile isLeading).filter (!isIgnored ·)

/-- The path of a file URI. What follows a question mark or a number sign is cut off. -/
def toPath (uri : Text) : Except Rejection Text := do
  let (scheme, rest) := splitScheme (tidied uri)
  let (authority, rest) := splitAuthority rest
  checkAuthority authority
  let isCut (c : CodePoint) : Bool := c = '?' || c = '#'
  if scheme = Text.ofString "file" then return unquote (rest.takeWhile (!isCut ·))
  else .error (.notFile uri)

end Uri

end RubyLanguageServer
