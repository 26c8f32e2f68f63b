import RubyLanguageServer.Json.Reader
import RubyLanguageServer.Schema.Catalog
import RubyLanguageServer.Text.Utf8
/-!
# Messages

A message is a request if it has an id and a notification if it has none. It is decoded from the
UTF-8 text of a JSON object.
-/
namespace RubyLanguageServer

/-- What a client calls a request by. -/
inductive RequestId where
  | int (n : Int)
  | text (t : Text)
deriving DecidableEq, Repr

namespace RequestId

def toJson : RequestId → Json
  | .int n => .int n
  | .text t => .text t

def toText : RequestId → Text
  | .int n => Numeral.ofInt n
  | .text t => t

end RequestId

structure Message where
  id : Option RequestId
  method : Text
  params : Json
deriving Repr

namespace Message

def isRequest (m : Message) : Bool := m.id.isSome

def ofInstance (v : Instance) : Message where
  id :=
    match v.field "id" with
    | .integer n => some (.int n)
    | .text t => some (.text t)
    | _ => none
  method := (v.field "method").asText
  params := (v.field "params").asData

def ofJson (j : Json) : Except Schema.Failure Message := (Catalog.message.check j).map ofInstance

inductive DecodeError where
  | notUtf8 (flaw : Utf8.Flaw)
  | notJson (e : Json.SyntaxError)
  | notObject
  | notMessage (failure : Schema.Failure)
deriving Repr

def DecodeError.message : DecodeError → Text
  | .notUtf8 flaw => "Content is not valid JSON: " ++ flaw.message
  | .notJson e => "Content is not valid JSON: " ++ e.message
  | .notObject => "Content is not a JSON object"
  | .notMessage failure => "Content is not a request or notification: " ++ failure.message

/-- What comes of content that is not a message: an error that is reported, or a numeral with too
many digits. -/
inductive Refusal where
  | undecodable (e : DecodeError)
  | excess (e : Numeral.Excess)
deriving Repr

def decode (content : Bytes) : Except Refusal Message :=
  match Utf8.decode content with
  | .error flaw => .error (.undecodable (.notUtf8 flaw))
  | .ok text =>
    match Json.read text with
    | .error (.malformed e) => .error (.undecodable (.notJson e))
    | .error (.excess e) => .error (.excess e)
    | .ok (.object members) =>
      match ofJson (.object members) with
      | .ok m => .ok m
      | .error failure => .error (.undecodable (.notMessage failure))
    | .ok _ => .error (.undecodable .notObject)

end Message

end RubyLanguageServer
