import RubyLanguageServer.Text.Basic
/-!
# Lines

A line ends at a line feed, a carriage return, the two together, or one of eight further break
characters. The text after the last break is a line only if it is not empty.
-/
namespace RubyLanguageServer

namespace CodePoint

def lineFeed : CodePoint := '\n'

def carriageReturn : CodePoint := '\r'

def isBreak (c : CodePoint) : Bool :=
  (0xa ≤ c.val && c.val ≤ 0xd) || (0x1c ≤ c.val && c.val ≤ 0x1e) || c.val == 0x85 ||
  c.val == 0x2028 || c.val == 0x2029

end CodePoint

namespace Text

open CodePoint (lineFeed carriageReturn)

def lines : Text → List Text
  | [] => []
  | c :: cs =>
    if c = carriageReturn then
      match cs with
      | [] => [[]]
      | d :: ds => if d = lineFeed then [] :: lines ds else [] :: lines (d :: ds)
    else if c.isBreak then [] :: lines cs
    else
      match lines cs with
      | [] => [[c]]
      | l :: ls => (c :: l) :: ls

/-- The text with every carriage return, alone or before a line feed, made one line feed. -/
def unifyNewlines : Text → Text
  | [] => []
  | c :: cs =>
    if c = carriageReturn then
      match cs with
      | [] => [lineFeed]
      | d :: ds =>
        if d = lineFeed then lineFeed :: unifyNewlines ds
        else lineFeed :: unifyNewlines (d :: ds)
    else c :: unifyNewlines cs

end Text

end RubyLanguageServer
