import RubyLanguageServer.Session.Registry
/-!
# Sessions

The state of a session: the open documents, the world, the messages written so far and the log, both
with the newest first. A message is written only as a whole frame.
-/
namespace RubyLanguageServer

structure Session (σ : Type) where
  store : DocumentStore := {}
  world : σ
  outbox : List Sent := []
  journal : List Event := []

namespace Session

variable {σ : Type}

/-- The messages that have been written, in order. -/
def written (s : Session σ) : List Sent := s.outbox.reverse

/-- The events that have been reported, in order. -/
def log (s : Session σ) : List Event := s.journal.reverse

def report (e : Event) (s : Session σ) : Session σ := { s with journal := e :: s.journal }

def send [Stack] (m : Outgoing) (s : Session σ) : Except EncodeError (Session σ) := do
  let sent ← m.sent
  return { s with outbox := sent :: s.outbox, journal := .sending m.subject :: s.journal }

def perform [Stack] (s : Session σ) : Effect → Session σ
  | .report e => s.report e
  | .notify method params =>
    match s.send (.notification method params) with
    | .ok s => s
    | .error _ => s

def runTask [Stack] {α : Type} (t : Task σ α) (s : Session σ) : Except Failure α × Session σ :=
  let (outcome, scene) := t.run.run { store := s.store, world := s.world }
  (outcome, scene.effects.foldl perform { s with store := scene.store, world := scene.world })

/-- The contents of the frames that have been written. -/
def contents (s : Session σ) : List Text := s.written.map Sent.content

def output (s : Session σ) : Bytes := s.contents.flatMap frameBytes

end Session

end RubyLanguageServer
