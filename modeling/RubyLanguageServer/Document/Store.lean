import RubyLanguageServer.Text.Entries
/-!
# The document store

The latest full text of each open document, in the order in which the documents were first stored.
A snapshot of the store is not touched by later writes.
-/
namespace RubyLanguageServer

/-- The directories of the session and the texts of the open documents under their URIs. -/
structure DocumentStore where
  roots : List Text := []
  entries : Entries Text := []
deriving DecidableEq, Repr

namespace DocumentStore

def put (s : DocumentStore) (uri text : Text) : DocumentStore :=
  { s with entries := Entries.insert uri text s.entries }

def get? (s : DocumentStore) (uri : Text) : Option Text := Entries.find? uri s.entries

def contains (s : DocumentStore) (uri : Text) : Bool := (s.get? uri).isSome

def size (s : DocumentStore) : Nat := s.entries.length

def uris (s : DocumentStore) : List Text := s.entries.map Prod.fst

def items (s : DocumentStore) : List (Text × Text) := s.entries

end DocumentStore

structure Snapshot where
  rest : List (Text × Text)
deriving DecidableEq, Repr

namespace Snapshot

def take (s : DocumentStore) : Snapshot := ⟨s.items⟩

/-- All that is left, and the snapshot without it. -/
def drain (s : Snapshot) : List (Text × Text) × Snapshot := (s.rest, ⟨[]⟩)

end Snapshot

end RubyLanguageServer
