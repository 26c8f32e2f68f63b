import RubyLanguageServer.Json.Printer
import RubyLanguageServer.Schema.Instance
import RubyLanguageServer.Wire.Message
/-!
# Outgoing messages

A payload is what a handler returns or notifies: JSON, records, lists and tables of them, or
something that has no JSON form. A message is first converted, with all its records brought into
their wire form, then printed as a whole, and only then is a byte of it written, so the output is
always a sequence of whole frames. The conversion takes room on the stack for every value inside
another, and fails when there is none left.
-/
namespace RubyLanguageServer

inductive Payload where
  | json (j : Json)
  | record (v : Instance)
  | list (items : List Payload)
  | table (members : List (Text × Payload))
  | foreign (typeName : Text)
  /-- A list or a table that stands inside itself. -/
  | cycle
deriving Inhabited

/-- How many values can be inside one another in a member of a message, counted from the outermost:
as many as the stack has room for. There is room for the members of an error. -/
class Stack where
  room : Nat
  enough : 2 ≤ room

/-- A stack with so much more room than an error takes. -/
@[reducible]
def Stack.withSpare (n : Nat) : Stack := ⟨n + 2, Nat.le_add_left 2 n⟩

inductive EncodeError where
  | brokenKey (surrogates : Utf8.LoneSurrogates)
  | excess (e : Numeral.Excess)
  | foreign (typeName : Text)
  | tooDeep
deriving DecidableEq, Repr

def EncodeError.message : EncodeError → Text
  | .brokenKey surrogates => "Cannot encode message: " ++ surrogates.message
  | .excess e => "Cannot encode message: " ++ e.message
  | .foreign typeName =>
    "Cannot encode message: Object of type " ++ typeName ++ " is not JSON serializable"
  | .tooDeep => "maximum recursion depth exceeded"

namespace Payload

/-- What ends the conversion of a payload for which there is so much room: the stack is used up, or
the data of a record has a key that cannot be encoded. What comes first counts. -/
def obstacle? : Nat → Payload → Option EncodeError
  | 0, _ => some .tooDeep
  | room + 1, .json j => if j.fits (room + 1) then none else some .tooDeep
  | _ + 1, .record v => v.brokenKey?.map .brokenKey
  | room + 1, .list items => items.findSome? (obstacle? room)
  | room + 1, .table members => members.findSome? fun m => obstacle? room m.2
  | _ + 1, .foreign _ => none
  | _ + 1, .cycle => some .tooDeep

mutual

/-- The JSON text of a payload that has been converted. -/
def print : Payload → Except EncodeError Text
  | .json j => j.print.mapError .excess
  | .record v => v.toWire.print.mapError .excess
  | .list items => do return Json.enclose "[" "]" (← printItems items)
  | .table members => do return Json.enclose "\x7b" "\x7d" (← printMembers members)
  | .foreign typeName => .error (.foreign typeName)
  | .cycle => .error .tooDeep

def printItems : List Payload → Except EncodeError (List Text)
  | [] => .ok []
  | p :: ps => do
    let part ← print p
    return part :: (← printItems ps)

def printMembers : List (Text × Payload) → Except EncodeError (List Text)
  | [] => .ok []
  | (key, p) :: ps => do
    let value ← print p
    return Json.printMember key value :: (← printMembers ps)

end

/-- The JSON text of a payload for which there is so much room. -/
def encode (room : Nat) (p : Payload) : Except EncodeError Text :=
  match p.obstacle? room with
  | some e => .error e
  | none => p.print

theorem print_of_encode {room : Nat} {p : Payload} {t : Text} (h : p.encode room = .ok t) :
    p.print = .ok t := by
  rw [encode] at h
  split at h
  · cases h
  · exact h

def null : Payload := .json .null

end Payload

/-- A message to the client. -/
inductive Outgoing where
  | response (id : Json) (result : Payload)
  | error (id : Json) (code : Int) (message : Text)
  | notification (method : Text) (params : Payload)

namespace Outgoing

/-- The members of the message object in the order in which they are written. -/
def payload : Outgoing → Payload
  | .response id result =>
    .table [("jsonrpc", .json (.text "2.0")), ("id", .json id), ("result", result)]
  | .error id code message =>
    .table [("jsonrpc", .json (.text "2.0")), ("id", .json id),
      ("error", .table [("code", .json (.int code)), ("message", .json (.text message))])]
  | .notification method params =>
    .table [("jsonrpc", .json (.text "2.0")), ("method", .json (.text method)),
      ("params", params)]

/-- The content of the message's frame. The message itself is the outermost of its values. -/
def body [Stack] (m : Outgoing) : Except EncodeError Text := m.payload.encode (Stack.room + 1)

/-- What the log calls the message: its method if that is not empty, else its id. -/
def subject : Outgoing → Text
  | .notification [] _ => "None"
  | .notification method _ => method
  | .response (.int n) _ | .error (.int n) _ _ => Numeral.ofInt n
  | .response (.text t) _ | .error (.text t) _ _ => t
  | _ => "None"

end Outgoing

/-- A message as it was written, with the content of its frame. -/
structure Sent where
  message : Outgoing
  content : Text
  printed : message.payload.print = .ok content

def Outgoing.sent [Stack] (m : Outgoing) : Except EncodeError Sent :=
  match h : m.body with
  | .ok content => .ok ⟨m, content, Payload.print_of_encode h⟩
  | .error e => .error e

def frameBytes (content : Text) : Bytes :=
  (Text.ofString "Content-Length: " ++ Numeral.ofNat content.length ++
    Text.ofString "\r\n\r\n" ++ content).map fun c => .ofNat c.val

end RubyLanguageServer
