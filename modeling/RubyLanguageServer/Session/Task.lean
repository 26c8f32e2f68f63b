import RubyLanguageServer.Analysis.Analyzer
/-!
# Tasks

A task is the work of a handler on one message. It sees the document store and the world, and leaves
behind, in order, what it reported and the notifications that it sent.
-/
namespace RubyLanguageServer

/-- What a task does to the outside. -/
inductive Effect where
  | report (e : Event)
  | notify (method : Text) (params : Payload)

/-- What a task works on. -/
structure Scene (σ : Type) where
  store : DocumentStore
  world : σ
  effects : List Effect := []

abbrev Task (σ : Type) := ExceptT Failure (StateM (Scene σ))

namespace Task

variable {σ : Type}

def emit (e : Effect) : Task σ Unit := modify fun s => { s with effects := s.effects ++ [e] }

def report (e : Event) : Task σ Unit := emit (.report e)

/-- Sends a notification; one that cannot be written fails and is not sent. -/
def notify [Stack] (method : Text) (params : Payload) : Task σ Unit :=
  match (Outgoing.notification method params).body with
  | .ok _ => emit (.notify method params)
  | .error e => throw (.unencodable e)

def put (uri text : Text) : Task σ Unit := do
  report (.caching text.length uri)
  modify fun s => { s with store := s.store.put uri text }

def text (uri : Text) : Task σ Text := do
  match (← get).store.get? uri with
  | some t => return t
  | none => throw (.noDocument uri)

/-- Runs an analyzer and gives its outcome; a failure of the analyzer is not one of the task. -/
def attempt {α : Type} (p : DocumentStore → Probe σ α) : Task σ (Except Failure α) := do
  let scene ← get
  let (outcome, bench) := (p scene.store).run.run { world := scene.world }
  set { scene with
    world := bench.world
    effects := scene.effects ++ bench.log.map Effect.report }
  return outcome

/-- The record that the parameters of a message spell. -/
def validate (shape : Shape) (params : Json) : Task σ Instance :=
  match shape.check params with
  | .ok v => return v
  | .error failure => throw (.invalid failure)

end Task

end RubyLanguageServer
