import RubyLanguageServer.Json.Basic
import RubyLanguageServer.Text.Utf8
/-!
# Validated values

What validation yields: every field of a record has its value, with defaults filled in and loose
spellings resolved. On the wire a record is an object in which fields without a value are left out.
The keys of the data inside a record must be encodable, while its strings need not be.
-/
namespace RubyLanguageServer

inductive Instance where
  | none
  | flag (b : Bool)
  | integer (n : Int)
  | text (t : Text)
  | list (items : List Instance)
  | record (fields : List (Text × Instance))
  | data (j : Json)
deriving Repr, Inhabited

namespace Instance

mutual

/-- A value inside a record: a floating point number that is not finite becomes null. -/
def finiteData : Json → Json
  | .float x => if x.isFinite then .float x else .null
  | .array vs => .array (finiteItems vs)
  | .object ms => .object (finiteMembers ms)
  | j => j

def finiteItems : List Json → List Json
  | [] => []
  | v :: vs => finiteData v :: finiteItems vs

def finiteMembers : List (Text × Json) → List (Text × Json)
  | [] => []
  | (key, v) :: ms => (key, finiteData v) :: finiteMembers ms

end

mutual

/-- The wire form: fields in order under their wire names, those without a value left out. -/
def toWire : Instance → Json
  | .none => .null
  | .flag b => .bool b
  | .integer n => .int n
  | .text t => .text t
  | .list items => .array (itemsToWire items)
  | .record fields => .object (fieldsToWire fields)
  | .data j => finiteData j

def itemsToWire : List Instance → List Json
  | [] => []
  | v :: vs => toWire v :: itemsToWire vs

def fieldsToWire : List (Text × Instance) → List (Text × Json)
  | [] => []
  | (_, .none) :: rest => fieldsToWire rest
  | (key, v) :: rest => (key, toWire v) :: fieldsToWire rest

end

mutual

/-- The surrogates of the first key of some data that cannot be encoded. A key comes before its
value. -/
def brokenKeyIn? : Json → Option Utf8.LoneSurrogates
  | .array vs => brokenKeyInItems? vs
  | .object ms => brokenKeyInMembers? ms
  | _ => Option.none

def brokenKeyInItems? : List Json → Option Utf8.LoneSurrogates
  | [] => Option.none
  | v :: vs => (brokenKeyIn? v).or (brokenKeyInItems? vs)

def brokenKeyInMembers? : List (Text × Json) → Option Utf8.LoneSurrogates
  | [] => Option.none
  | (key, v) :: ms =>
    ((Utf8.loneSurrogates? key).or (brokenKeyIn? v)).or (brokenKeyInMembers? ms)

end

mutual

/-- The surrogates of the first key of a value's data that cannot be encoded. -/
def brokenKey? : Instance → Option Utf8.LoneSurrogates
  | .data j => brokenKeyIn? j
  | .list items => brokenKeyOfItems? items
  | .record fields => brokenKeyOfFields? fields
  | _ => Option.none

def brokenKeyOfItems? : List Instance → Option Utf8.LoneSurrogates
  | [] => Option.none
  | v :: vs => (brokenKey? v).or (brokenKeyOfItems? vs)

def brokenKeyOfFields? : List (Text × Instance) → Option Utf8.LoneSurrogates
  | [] => Option.none
  | (_, v) :: rest => (brokenKey? v).or (brokenKeyOfFields? rest)

end

/-- The wire form, if all keys of its data can be encoded. -/
def dump (v : Instance) : Except Utf8.LoneSurrogates Json :=
  match v.brokenKey? with
  | some surrogates => .error surrogates
  | Option.none => .ok v.toWire

/-- The value of a record's field; no value for a field that is not there. -/
def field (key : Text) : Instance → Instance
  | .record fields => (Entries.find? key fields).getD .none
  | _ => .none

def asText : Instance → Text
  | .text t => t
  | _ => []

def asInteger : Instance → Int
  | .integer n => n
  | _ => 0

def asFlag : Instance → Bool
  | .flag b => b
  | _ => false

def asList : Instance → List Instance
  | .list items => items
  | _ => []

def asText? : Instance → Option Text
  | .text t => some t
  | _ => Option.none

def asData : Instance → Json
  | .data j => j
  | _ => .null

end Instance

end RubyLanguageServer
