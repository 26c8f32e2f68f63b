import RubyLanguageServer.Text.Basic
/-!
# Control sequences

A terminal is steered by sequences in the text that it shows: an escape character and an opening
bracket, parameter characters, intermediate characters, and a final character. Where text is shown
plain they are left out; a sequence without its final character is text like any other.
-/
namespace RubyLanguageServer

namespace CodePoint

def escape : CodePoint := ⟨0x1b, by decide⟩

/-- A character for the parameters of a control sequence. -/
def isParameter (c : CodePoint) : Bool := 0x30 ≤ c.val && c.val ≤ 0x3f

/-- A character between the parameters of a control sequence and its end. -/
def isIntermediate (c : CodePoint) : Bool := 0x20 ≤ c.val && c.val ≤ 0x2f

def isFinal (c : CodePoint) : Bool := 0x40 ≤ c.val && c.val ≤ 0x7e

end CodePoint

namespace Text

/-- The length of the control sequence at the beginning of a text, and zero if there is none. -/
def controlLength (t : Text) : Nat :=
  match t.after? [CodePoint.escape, '['] with
  | none => 0
  | some body =>
    let parameters := body.takeWhile CodePoint.isParameter
    let rest := body.dropWhile CodePoint.isParameter
    let intermediates := rest.takeWhile CodePoint.isIntermediate
    match rest.dropWhile CodePoint.isIntermediate with
    | [] => 0
    | c :: _ => if c.isFinal then parameters.length + intermediates.length + 3 else 0

/-- The text behind a number of characters, without control sequences. -/
def plainBehind : Nat → Text → Text
  | _, [] => []
  | skip + 1, _ :: cs => plainBehind skip cs
  | 0, c :: cs =>
    match controlLength (c :: cs) with
    | 0 => c :: plainBehind 0 cs
    | more + 1 => plainBehind more cs

def plain (t : Text) : Text := plainBehind 0 t

end Text

end RubyLanguageServer
