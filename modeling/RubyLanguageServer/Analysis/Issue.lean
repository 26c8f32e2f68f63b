import RubyLanguageServer.Number.Numeral
import RubyLanguageServer.Text.Blank
import RubyLanguageServer.Text.Lines
/-!
# Issues

An issue is a problem found in a document. The syntax checker prints one on a line of the form
`-:3: warning: message` or `-:3: message`; its other lines are excerpts and are skipped.
-/
namespace RubyLanguageServer

/-- A problem on a line counted from zero. -/
structure Issue where
  message : Text
  line : Int
  isWarning : Bool
deriving DecidableEq, Repr

namespace Issue

/-- The digits and the rest of a line that begins with a location. -/
def location? (line : Text) : Option (Text × Text) := do
  let rest ← line.after? "-:"
  match rest.takeWhile CodePoint.isDecimal, rest.dropWhile CodePoint.isDecimal with
  | d :: ds, c :: cs => if c = ':' then some (d :: ds, cs) else none
  | _, _ => none

/-- The issue on one line of the checker's output. -/
def ofLine? (line : Text) : Option (Except Numeral.Excess Issue) := do
  let (digits, rest) ← location? line
  let rest : Text := rest.dropWhile CodePoint.isBlank
  let (isWarning, message) : Bool × Text :=
    match rest.after? "warning:" with
    | some message => (true, message)
    | none => (false, rest)
  return (Numeral.read digits).map fun n =>
    { message := message.trim, line := max ((n : Int) - 1) 0, isWarning }

/-- The issues on the given lines, up to the first location with too many digits. -/
def ofLines : List Text → Except Numeral.Excess (List Issue)
  | [] => .ok []
  | line :: lines =>
    match ofLine? line with
    | none => ofLines lines
    | some found => do
      let issue ← found
      let issues ← ofLines lines
      return issue :: issues

def ofOutput (output : Text) : Except Numeral.Excess (List Issue) := ofLines output.lines

end Issue

end RubyLanguageServer
