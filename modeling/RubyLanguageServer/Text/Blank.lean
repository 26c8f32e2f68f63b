import RubyLanguageServer.Text.Basic
/-!
# Blank characters

Two sets are in use: the Unicode property `White_Space`, and the wider set that also counts the
four information separators U+001C to U+001F. Scanners and trimming take the wider set; numbers
given as text are trimmed by the narrower one.
-/
namespace RubyLanguageServer

namespace CodePoint

/-- The Unicode property `White_Space`. -/
def isWhite (c : CodePoint) : Bool :=
  (0x9 ≤ c.val && c.val ≤ 0xd) || c.val == 0x20 || c.val == 0x85 || c.val == 0xa0 ||
  c.val == 0x1680 || (0x2000 ≤ c.val && c.val ≤ 0x200a) || c.val == 0x2028 || c.val == 0x2029 ||
  c.val == 0x202f || c.val == 0x205f || c.val == 0x3000

def isBlank (c : CodePoint) : Bool := c.isWhite || (0x1c ≤ c.val && c.val ≤ 0x1f)

end CodePoint

namespace Text

/-- The text without the leading and trailing code points of a class. -/
def trimBy (p : CodePoint → Bool) (t : Text) : Text :=
  ((t.dropWhile p).reverse.dropWhile p).reverse

/-- The text without leading and trailing blanks. -/
def trim (t : Text) : Text := t.trimBy CodePoint.isBlank

def isBlank (t : Text) : Bool := t.all CodePoint.isBlank

end Text

end RubyLanguageServer
