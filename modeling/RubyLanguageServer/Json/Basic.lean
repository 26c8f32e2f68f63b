import RubyLanguageServer.Number.Binary64
import RubyLanguageServer.Text.Entries
/-!
# JSON values

Integers are exact, numbers with a fraction or an exponent are floating point, and the members of
an object keep the order in which their keys first came.
-/
namespace RubyLanguageServer

inductive Json where
  | null
  | bool (b : Bool)
  | int (n : Int)
  | float (x : Binary64)
  | text (t : Text)
  | array (items : List Json)
  | object (members : List (Text × Json))
deriving Repr, Inhabited

namespace Json

def typeName : Json → Text
  | .null => "NoneType"
  | .bool _ => "bool"
  | .int _ => "int"
  | .float _ => "float"
  | .text _ => "str"
  | .array _ => "list"
  | .object _ => "dict"

/-- Whether no more than so many values are inside one another. -/
def fits : Nat → Json → Bool
  | 0, _ => false
  | room + 1, .array vs => vs.all (fits room)
  | room + 1, .object ms => ms.all fun m => fits room m.2
  | _ + 1, _ => true

end Json

end RubyLanguageServer
