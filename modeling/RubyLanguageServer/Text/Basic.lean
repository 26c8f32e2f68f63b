/-!
# Text as code points

Documents, method names and JSON strings may hold a surrogate that stands alone, which a `String`
cannot. A text is therefore a list of code points. A string literal is read as the text of its
characters wherever a text is expected.
-/
namespace RubyLanguageServer

/-- A Unicode code point, surrogates included. -/
structure CodePoint where
  val : Nat
  isLt : val < 0x110000
deriving DecidableEq, Repr

namespace CodePoint

/-- The code point of a character; it is never a surrogate. -/
def ofChar (c : Char) : CodePoint :=
  ⟨c.toNat, by
    rcases c.valid with h | ⟨_, h⟩ <;> simp only [Char.toNat, UInt32.toNat] at * <;> omega⟩

instance : Coe Char CodePoint := ⟨ofChar⟩

/-- The replacement character, which stands for what cannot be decoded. -/
def replacement : CodePoint := ⟨0xfffd, by decide⟩

/-- The code point of a number, and the replacement character for a number that has none. -/
def ofNat (n : Nat) : CodePoint :=
  if h : n < 0x110000 then ⟨n, h⟩ else replacement

instance : Inhabited CodePoint := ⟨replacement⟩

def nul : CodePoint := ⟨0, by decide⟩

def isHighSurrogate (c : CodePoint) : Bool := 0xd800 ≤ c.val && c.val ≤ 0xdbff

def isLowSurrogate (c : CodePoint) : Bool := 0xdc00 ≤ c.val && c.val ≤ 0xdfff

def isSurrogate (c : CodePoint) : Bool := 0xd800 ≤ c.val && c.val ≤ 0xdfff

def isAscii (c : CodePoint) : Bool := c.val < 0x80

def isUpper (c : CodePoint) : Bool := 0x41 ≤ c.val && c.val ≤ 0x5a

def isLower (c : CodePoint) : Bool := 0x61 ≤ c.val && c.val ≤ 0x7a

def isLetter (c : CodePoint) : Bool := c.isUpper || c.isLower

def isDigit (c : CodePoint) : Bool := 0x30 ≤ c.val && c.val ≤ 0x39

/-- The small form of an ASCII capital; every other code point stays as it is. -/
def toLower (c : CodePoint) : CodePoint := if c.isUpper then ofNat (c.val + 0x20) else c

def hexValue? (c : CodePoint) : Option Nat :=
  if c.isDigit then some (c.val - 0x30)
  else if 0x41 ≤ c.val && c.val ≤ 0x46 then some (c.val - 0x37)
  else if 0x61 ≤ c.val && c.val ≤ 0x66 then some (c.val - 0x57)
  else none

/-- The small hexadecimal digit of a value below sixteen. -/
def hexDigit (n : Nat) : CodePoint := if n < 10 then ofNat (0x30 + n) else ofNat (0x57 + n)

/-- The capital hexadecimal digit of a value below sixteen. -/
def hexDigitUpper (n : Nat) : CodePoint := if n < 10 then ofNat (0x30 + n) else ofNat (0x37 + n)

/-- The character of a code point; a surrogate has none and shows as the replacement character. -/
def toChar (c : CodePoint) : Char := if c.isSurrogate then Char.ofNat 0xfffd else Char.ofNat c.val

end CodePoint

/-- A text: its code points in order. -/
abbrev Text := List CodePoint

namespace Text

def ofString (s : String) : Text := s.toList.map CodePoint.ofChar

instance : Coe String Text := ⟨ofString⟩

/-- The text as a string, with the replacement character for each surrogate. -/
def toString (t : Text) : String := String.ofList (t.map CodePoint.toChar)

/-- What follows a given beginning, if the text has that beginning. -/
def after? : Text → Text → Option Text
  | t, [] => some t
  | [], _ :: _ => none
  | c :: cs, p :: ps => if c = p then after? cs ps else none

/-- Order by code points, a beginning before its continuations. -/
def le : Text → Text → Bool
  | [], _ => true
  | _ :: _, [] => false
  | a :: s, b :: t => a.val < b.val || (a.val == b.val && le s t)

def sort (ts : List Text) : List Text := ts.mergeSort le

def dropRepeats : List Text → List Text
  | [] => []
  | [t] => [t]
  | t :: u :: ts => if t = u then dropRepeats (u :: ts) else t :: dropRepeats (u :: ts)

def sortDistinct (ts : List Text) : List Text := dropRepeats (sort ts)

/-- The parts between the separators; there is one part more than there are separators. -/
def splitOn (sep : CodePoint) : Text → List Text
  | [] => [[]]
  | c :: cs =>
    if c = sep then [] :: splitOn sep cs
    else
      match splitOn sep cs with
      | [] => [[c]]
      | p :: ps => (c :: p) :: ps

/-- The parts one after another with a separator between each two. -/
def joinWith (sep : Text) : List Text → Text
  | [] => []
  | [t] => t
  | t :: u :: ts => t ++ sep ++ joinWith sep (u :: ts)

/-- The last `count` hexadecimal digits of a number. -/
def hexDigits : Nat → Nat → Text
  | 0, _ => []
  | count + 1, n => hexDigits count (n / 16) ++ [.hexDigit (n % 16)]

def toLower (t : Text) : Text := t.map CodePoint.toLower

end Text

end RubyLanguageServer
