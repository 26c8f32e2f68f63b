import RubyLanguageServer.Json.Basic
/-!
# Validation faults

A fault says where in a value something does not fit and why. A failed validation carries all
faults of the value, in the order of the schema's fields and of the items.
-/
namespace RubyLanguageServer

namespace Schema

inductive Reason where
  | missing
  | notRecord (name : Text)
  | notList
  | notText
  | notUnicode
  | notInteger
  | unreadableInteger
  | fractional
  | oversized
  | notFinite
  | notFlag
  | unreadableFlag
  | notChoice (values : List Int)
deriving DecidableEq, Repr

/-- The numbers with commas between them and `or` before the last. -/
def enumerate : List Int → Text
  | [] => []
  | [n] => Numeral.ofInt n
  | [m, n] => Numeral.ofInt m ++ " or " ++ Numeral.ofInt n
  | n :: ns => Numeral.ofInt n ++ ", " ++ enumerate ns

def Reason.code : Reason → Text
  | .missing => "missing"
  | .notRecord _ => "model_type"
  | .notList => "list_type"
  | .notText => "string_type"
  | .notUnicode => "string_unicode"
  | .notInteger => "int_type"
  | .unreadableInteger => "int_parsing"
  | .fractional => "int_from_float"
  | .oversized => "int_parsing_size"
  | .notFinite => "finite_number"
  | .notFlag => "bool_type"
  | .unreadableFlag => "bool_parsing"
  | .notChoice _ => "enum"

def Reason.message : Reason → Text
  | .missing => "Field required"
  | .notRecord name => "Input should be a valid dictionary or instance of " ++ name
  | .notList => "Input should be a valid list"
  | .notText => "Input should be a valid string"
  | .notUnicode => "Input should be a valid string, unable to parse raw data as a unicode string"
  | .notInteger => "Input should be a valid integer"
  | .unreadableInteger =>
    "Input should be a valid integer, unable to parse string as an integer"
  | .fractional => "Input should be a valid integer, got a number with a fractional part"
  | .oversized => "Unable to parse input string as an integer, exceeded maximum size"
  | .notFinite => "Input should be a finite number"
  | .notFlag => "Input should be a valid boolean"
  | .unreadableFlag => "Input should be a valid boolean, unable to interpret input"
  | .notChoice values => "Input should be " ++ enumerate values

inductive Step where
  | key (name : Text)
  | index (i : Nat)
deriving DecidableEq, Repr

def Step.message : Step → Text
  | .key name => name
  | .index i => Numeral.ofNat i

/-- A place in a value, the reason why what stands there does not fit, and the name of its type. -/
structure Fault where
  path : List Step
  reason : Reason
  input : Text
deriving DecidableEq, Repr

/-- The same fault seen from one step further out. -/
def Fault.under (step : Step) (f : Fault) : Fault := { f with path := step :: f.path }

def Fault.message (f : Fault) : Text :=
  let place : Text :=
    match f.path with
    | [] => []
    | path => "\n" ++ Text.joinWith "." (path.map Step.message)
  place ++ "\n  " ++ f.reason.message ++ " [type=" ++ f.reason.code ++ ", input_type=" ++
    f.input ++ "]"

/-- A failed validation: the name of the record and all its faults. -/
structure Failure where
  record : Text
  faults : List Fault
deriving DecidableEq, Repr

def Failure.message (f : Failure) : Text :=
  let count := f.faults.length
  let noun : Text := if count = 1 then " validation error for " else " validation errors for "
  Numeral.ofNat count ++ noun ++ f.record ++ f.faults.flatMap Fault.message

end Schema

end RubyLanguageServer
