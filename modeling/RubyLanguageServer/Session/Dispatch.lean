import RubyLanguageServer.Session.Basic
/-!
# Dispatch

A message goes to the first handler that accepts its method, and a request that has a handler is
answered exactly once: with the handler's result, or with an error if the handler fails or its
result cannot be written, or with null if it ends the session. Only a result for which the stack has
no room is not answered: nothing handles that failure.
-/
namespace RubyLanguageServer

namespace Session

variable {σ : Type} [Stack]

/-- The collaborators that a handler is called with. -/
def given (available : List Collaborator) (h : Handler σ) : List Collaborator :=
  Collaborator.all.filter fun c =>
    (c = .request || available.contains c) && h.needs.contains c.name

/-- Reports a failure and tells the client if the message is a request. -/
def fail (m : Message) (failure : Failure) (s : Session σ) : Except Failure Bool × Session σ :=
  let s := s.report (.handlerFailed m.method failure.message)
  match m.id with
  | none => (.ok true, s)
  | some id =>
    match s.send (.error id.toJson failure.code failure.message) with
    | .ok s => (.ok true, s)
    | .error e => (.error (.unencodable e), s)

def respond (m : Message) (result : Payload) (s : Session σ) : Except EncodeError (Session σ) :=
  match m.id with
  | none => .ok s
  | some id => s.send (.response id.toJson result)

/-- Tells the client what the handler of a message came to. Fails if the handler ends the
session. -/
def conclude (m : Message) (outcome : Except Failure Payload) (s : Session σ) :
    Except Failure Bool × Session σ :=
  match outcome with
  | .ok result =>
    match s.respond m result with
    | .ok s => (.ok true, s)
    | .error .tooDeep => (.error (.unencodable .tooDeep), s)
    | .error e => s.fail m (.unencodable e)
  | .error (.shutdown code reason) =>
    match s.respond m .null with
    | .ok s => (.error (.shutdown code reason), s)
    | .error e => (.error (.unencodable e), s)
  | .error failure => s.fail m failure

/-- Hands a message to its handler. Tells whether there is one. -/
def dispatch (r : Registry σ) (available : List Collaborator) (m : Message) (s : Session σ) :
    Except Failure Bool × Session σ :=
  let s := s.report (.called m.method)
  match r.find m.method with
  | none => (.ok false, s.report (.ignored m.method))
  | some h =>
    let (outcome, s) := s.runTask (h.run ⟨m, given available h⟩)
    s.conclude m outcome

end Session

end RubyLanguageServer
