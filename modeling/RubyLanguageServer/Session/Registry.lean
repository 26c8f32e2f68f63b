import RubyLanguageServer.Session.Task
/-!
# The registry of handlers

Handlers are registered under a method's name or under a predicate on names, and the first entry
that accepts a method answers it. A name that is registered again keeps its place. Once sealed, a
registry takes no more handlers.
-/
namespace RubyLanguageServer

/-- What a handler may ask to be called with. -/
inductive Collaborator where
  | documentStore
  | notifier
  | request
deriving DecidableEq, Repr

namespace Collaborator

def name : Collaborator → Text
  | .documentStore => "document_store"
  | .notifier => "notifier"
  | .request => "request"

/-- All collaborators in the order of their names. -/
def all : List Collaborator := [.documentStore, .notifier, .request]

end Collaborator

/-- A call of a handler: the message, and those of its collaborators that are there. -/
structure Call where
  message : Message
  given : List Collaborator

structure Handler (σ : Type) where
  needs : List Text := []
  run : Call → Task σ Payload

inductive Matcher where
  | named (method : Text)
  | satisfying (accepts : Text → Bool)

namespace Matcher

def accepts (method : Text) : Matcher → Bool
  | .named name => name = method
  | .satisfying p => p method

def isNamed (name : Text) : Matcher → Bool
  | .named other => other = name
  | .satisfying _ => false

end Matcher

structure Registry (σ : Type) where
  entries : List (Matcher × Handler σ) := []
  isSealed : Bool := false

namespace Registry

variable {σ : Type}

inductive Refusal where
  | isSealed
  | unknown (names : List Text)
deriving DecidableEq, Repr

def Refusal.message : Refusal → Text
  | .isSealed => "Cannot register handlers on a sealed registry"
  | .unknown names => "Unknown collaborators requested: " ++ Text.joinWith ", " names

/-- The names in ascending order, each once, that are no collaborator's. -/
def unknownNeeds (needs : List Text) : List Text :=
  Text.sortDistinct (needs.filter fun n => !(Collaborator.all.map Collaborator.name).contains n)

/-- Puts a handler in the place of its name, or else at the end. -/
def place (m : Matcher) (h : Handler σ) :
    List (Matcher × Handler σ) → List (Matcher × Handler σ)
  | [] => [(m, h)]
  | (m', h') :: rest =>
    match m with
    | .named name => if m'.isNamed name then (m, h) :: rest else (m', h') :: place m h rest
    | .satisfying _ => (m', h') :: place m h rest

def register (r : Registry σ) (m : Matcher) (h : Handler σ) : Except Refusal (Registry σ) :=
  if r.isSealed then .error .isSealed
  else
    match unknownNeeds h.needs with
    | [] => .ok { r with entries := place m h r.entries }
    | names => .error (.unknown names)

/-- Registers a callback with the collaborators that it asks for, and gives it back. -/
def registerCallback (r : Registry σ) (m : Matcher) (needs : List Text)
    (callback : Call → Task σ Payload) :
    Except Refusal (Registry σ × (Call → Task σ Payload)) := do
  let r ← r.register m { needs, run := callback }
  return (r, callback)

def lock (r : Registry σ) : Registry σ := { r with isSealed := true }

/-- The handler of the first entry that accepts a method. -/
def find (r : Registry σ) (method : Text) : Option (Handler σ) :=
  (r.entries.find? (·.1.accepts method)).map Prod.snd

def size (r : Registry σ) : Nat := r.entries.length

end Registry

end RubyLanguageServer
