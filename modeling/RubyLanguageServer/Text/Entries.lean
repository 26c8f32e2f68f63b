import RubyLanguageServer.Text.Basic
/-!
# Entries

Values under texts in the order in which the texts first came. Setting a text that is already there
changes its value and keeps its place.
-/
namespace RubyLanguageServer

abbrev Entries (α : Type) := List (Text × α)

namespace Entries

def find? {α : Type} (key : Text) : Entries α → Option α
  | [] => none
  | (k, v) :: rest => if k = key then some v else find? key rest

/-- The entries with a key's value set: in its place if the key is there, else at the end. -/
def insert {α : Type} (key : Text) (value : α) : Entries α → Entries α
  | [] => [(key, value)]
  | (k, v) :: rest => if k = key then (k, value) :: rest else (k, v) :: insert key value rest

/-- Entries one after another, a later value in the place of an earlier one under the same key. -/
def ofList {α : Type} (pairs : List (Text × α)) : Entries α :=
  pairs.foldl (fun es (key, value) => insert key value es) []

end Entries

end RubyLanguageServer
