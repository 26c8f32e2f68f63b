import RubyLanguageServer.Number.Numeral
/-!
# Internet addresses

The written forms of addresses that a URL may hold between brackets. An address of version 4 is four
octets with points between them. One of version 6 is eight groups with colons between them; an
address of version 4 may stand for the last two groups, and two colons for the groups that are left
out. Addresses of later versions begin with the letter v and their version.
-/
namespace RubyLanguageServer

namespace Address

/-- A number up to 255 in decimal digits without leading zeros. -/
def isOctet (t : Text) : Bool :=
  t.all CodePoint.isDigit && t.length ≤ 3 && Numeral.value t ≤ 255 &&
    match t with
    | [] => false
    | [_] => true
    | c :: _ => c ≠ CodePoint.ofChar '0'

def isVersion4 (t : Text) : Bool :=
  let octets := t.splitOn '.'
  octets.length == 4 && octets.all isOctet

def isHexDigit (c : CodePoint) : Bool := c.hexValue?.isSome

def isGroup (t : Text) : Bool := t ≠ [] && t.length ≤ 4 && t.all isHexDigit

/-- The parts with two groups for an address of version 4 at their end. -/
def expandTail (parts : List Text) : List Text :=
  let zero : Text := "0"
  if parts.getLast?.any isVersion4 then parts.dropLast ++ [zero, zero] else parts

/-- The parts before and behind the first empty part that stands between others. -/
def gap? : List Text → Option (List Text × List Text)
  | [] => none
  | first :: rest =>
    match rest.dropWhile (· ≠ []) with
    | _ :: p :: ps => some (first :: rest.takeWhile (· ≠ []), p :: ps)
    | _ => none

/-- The number of groups on one side of two colons, where one empty part stands for none. -/
def sideSize? (parts : List Text) : Option Nat :=
  if parts = [[]] then some 0 else if parts.all isGroup then some parts.length else none

def areGroups (parts : List Text) : Bool :=
  match gap? parts with
  | none => parts.length == 8 && parts.all isGroup
  | some (before, behind) =>
    match sideSize? before, sideSize? behind with
    | some m, some n => m + n < 8
    | _, _ => false

/-- An address of version 6, with or without a zone behind a percent sign. -/
def isVersion6 (t : Text) : Bool :=
  let isPercent (c : CodePoint) : Bool := c = '%'
  let zoned : Bool :=
    match t.dropWhile (!isPercent ·) with
    | [] => true
    | _ :: zone => zone ≠ [] && !zone.any isPercent
  zoned && areGroups (expandTail (Text.splitOn ':' (t.takeWhile (!isPercent ·))))

/-- An address of a later version: the version in hexadecimal digits behind a v, a point, and
something behind the point. -/
def isLater (t : Text) : Bool :=
  match t with
  | [] => false
  | c :: cs =>
    match cs.takeWhile isHexDigit, cs.dropWhile isHexDigit with
    | _ :: _, p :: _ :: _ => c = 'v' && p = '.'
    | _, _ => false

end Address

end RubyLanguageServer
