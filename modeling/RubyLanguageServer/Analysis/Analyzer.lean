import RubyLanguageServer.Analysis.Candidate
import RubyLanguageServer.Analysis.Issue
import RubyLanguageServer.Document.Store
import RubyLanguageServer.Failure
import RubyLanguageServer.Log.Event
/-!
# Linters and completion providers

A linter finds issues in a text, and a provider finds candidates at a position. Both may change the
world they work in, report events and fail; neither can change the document store.
-/
namespace RubyLanguageServer

/-- The world in which an analyzer works, and what it has reported. -/
structure Bench (σ : Type) where
  world : σ
  log : List Event := []

/-- The work of an analyzer. -/
abbrev Probe (σ : Type) := ExceptT Failure (StateM (Bench σ))

namespace Probe

variable {σ : Type}

def report (e : Event) : Probe σ Unit := modify fun b => { b with log := b.log ++ [e] }

def reportAll (es : List Event) : Probe σ Unit := modify fun b => { b with log := b.log ++ es }

def world : Probe σ σ := return (← get).world

def setWorld (w : σ) : Probe σ Unit := modify fun b => { b with world := w }

def text (store : DocumentStore) (uri : Text) : Probe σ Text :=
  match store.get? uri with
  | some t => return t
  | none => throw (.noDocument uri)

end Probe

structure Linter (σ : Type) where
  name : Text
  analyze : Text → Probe σ (List Issue)

/-- A position in a document. -/
structure Query where
  uri : Text
  line : Int
  character : Int
deriving DecidableEq, Repr

structure Provider (σ : Type) where
  name : Text
  complete : Query → DocumentStore → Probe σ (List Candidate)

end RubyLanguageServer
