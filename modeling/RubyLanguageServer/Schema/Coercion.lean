import RubyLanguageServer.Schema.Fault
import RubyLanguageServer.Text.Blank
/-!
# Loose scalars

Integers, flags and choices are also accepted in other spellings: a whole floating point number, a
flag or a numeral for an integer, and a few words for a flag.
-/
namespace RubyLanguageServer

namespace Schema

/-- What a text is as a plain numeral: an optional minus sign, and digits without a leading zero.
The digits are counted before anything behind them is looked at. -/
inductive PlainNumeral where
  | value (n : Int)
  | tooLong
  | other
deriving DecidableEq, Repr

/-- The plain numeral at the beginning of a text, if the text ends with it. -/
def plainNumeral (t : Text) : PlainNumeral :=
  let (negative, body) : Bool × Text :=
    match t with
    | c :: cs => if c = '-' then (true, cs) else (false, c :: cs)
    | [] => (false, [])
  let digits : Text := body.takeWhile CodePoint.isDigit
  let rest := body.dropWhile CodePoint.isDigit
  match digits with
  | [] => .other
  | d :: ds =>
    if d = '0' then if ds = [] && rest = [] then .value 0 else .other
    else if digits.length > Numeral.limit then .tooLong
    else if rest = [] then
      .value (if negative then -Numeral.value digits else Numeral.value digits)
    else .other

/-- What stands behind leading zeros and the low lines between them, the last character before it
given: a numeral begins at another digit or at a minus sign. The last zero counts if nothing or a
point follows. -/
def behindZeros (last : CodePoint) : Text → Option Text
  | [] => some [last]
  | c :: cs =>
    if c = '0' || c = '_' then behindZeros c cs
    else if c.isDigit || c = '-' then some (c :: cs)
    else if c = '.' then some (last :: c :: cs)
    else none

/-- An unsigned numeral without its leading zeros. -/
def stripZeros : Text → Option Text
  | [] => none
  | c :: cs => if c = '0' then behindZeros c cs else if c.isDigit then some (c :: cs) else none

/-- A numeral without the leading zeros behind its sign, and without a plus sign. -/
def stripSignedZeros : Text → Option Text
  | [] => none
  | c :: cs =>
    if c = '-' then (stripZeros cs).map (c :: ·)
    else if c = '+' then stripZeros cs
    else stripZeros (c :: cs)

/-- A numeral without a point that only zeros follow. -/
def stripFraction (t : Text) : Text :=
  match t.dropWhile (· ≠ CodePoint.ofChar '.') with
  | _ :: d :: ds =>
    if (d :: ds).all (· = CodePoint.ofChar '0') then t.takeWhile (· ≠ CodePoint.ofChar '.') else t
  | _ => t

/-- Whether two low lines stand next to each other. -/
def hasDoubleLowLine : Text → Bool
  | c :: d :: ds => (c = '_' && d = '_') || hasDoubleLowLine (d :: ds)
  | _ => false

/-- A numeral without low lines, if they stand one by one inside it. -/
def stripLowLines (t : Text) : Text :=
  let isLowLine (c : CodePoint) : Bool := c = '_'
  if t.head?.any isLowLine || t.getLast?.any isLowLine || hasDoubleLowLine t then t
  else t.filter (!isLowLine ·)

/-- The plain form of a numeral that is written with white space around it, a plus sign, leading
zeros, low lines or a fraction of zeros. -/
def cleanNumeral (t : Text) : Option Text :=
  (stripSignedZeros (t.trimBy CodePoint.isWhite)).map fun t => stripLowLines (stripFraction t)

/-- The integer of a numeral. Only a numeral that is plain as it stands is told to be too long. -/
def integerOfText (t : Text) : Except Reason Int :=
  if t.any CodePoint.isSurrogate then .error .notUnicode
  else
    match plainNumeral t with
    | .value n => .ok n
    | .tooLong => .error .oversized
    | .other =>
      match (cleanNumeral t).map plainNumeral with
      | some (.value n) => .ok n
      | _ => .error .unreadableInteger

/-- Whether an integer fits in 64 bits with a sign. -/
def isWord (n : Int) : Bool := -9223372036854775808 ≤ n && n ≤ 9223372036854775807

/-- A floating point number as an integer of 64 bits; the least of those is left out. -/
def integerOfFloat (x : Binary64) : Except Reason Int :=
  if !x.isFinite then .error .notFinite
  else
    match x.toInt? with
    | none => .error .fractional
    | some n =>
      if isWord n && n ≠ -9223372036854775808 then .ok n else .error .oversized

def integerOf : Json → Except Reason Int
  | .int n => .ok n
  | .bool b => .ok (if b then 1 else 0)
  | .float x => integerOfFloat x
  | .text t => integerOfText t
  | _ => .error .notInteger

/-- Zero and one as a flag; other numbers are told apart by their size. -/
def flagOfInteger (n : Int) : Except Reason Bool :=
  if n = 1 then .ok true
  else if n = 0 then .ok false
  else .error (if isWord n then .unreadableFlag else .notFlag)

def trueWords : List Text := ["1", "true", "t", "yes", "y", "on"]

def falseWords : List Text := ["0", "false", "f", "no", "n", "off"]

def flagOf : Json → Except Reason Bool
  | .bool b => .ok b
  | .int n => flagOfInteger n
  | .float x =>
    match integerOfFloat x with
    | .ok n => flagOfInteger n
    | .error _ => .error .notFlag
  | .text t =>
    if t.any CodePoint.isSurrogate then .error .notUnicode
    else if trueWords.contains t.toLower then .ok true
    else if falseWords.contains t.toLower then .ok false
    else .error .unreadableFlag
  | _ => .error .notFlag

/-- A value as one of the given integers. What is wrong comes with the value that is at fault: the
integer itself if it does not fit in 64 bits. -/
def choiceOf (values : List Int) (j : Json) : Except (Reason × Json) Int :=
  match integerOf j with
  | .ok n =>
    if !isWord n then .error (.oversized, .int n)
    else if values.contains n then .ok n
    else .error (.notChoice values, j)
  | .error _ => .error (.notChoice values, j)

end Schema

end RubyLanguageServer
