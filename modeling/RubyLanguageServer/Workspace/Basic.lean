import RubyLanguageServer.Log.Event
import RubyLanguageServer.Workspace.Scan
/-!
# The workspace

The root directories of a session and the Ruby files below them. The disk is scanned when the files
are first asked for, and again only on request.
-/
namespace RubyLanguageServer

structure Workspace where
  roots : List Text
  files : Option (List Text) := none
deriving DecidableEq, Repr

namespace Workspace

/-- A root that is not a directory. -/
structure Rejection where
  root : Text
deriving DecidableEq, Repr

def Rejection.message (r : Rejection) : Text := "Workspace path is not a directory: " ++ r.root

def create (disk : Disk) (roots : List Text) : Except Rejection Workspace :=
  let roots := roots.map (Path.absolute disk.current)
  match roots.find? (!disk.isDirectory ·) with
  | some root => .error ⟨root⟩
  | none => .ok { roots }

def opened (w : Workspace) : Event := .workspaceOpened w.roots

/-- The Ruby files, the workspace that remembers them, and what is reported. -/
def list (disk : Disk) (refresh : Bool) (w : Workspace) : List Text × Workspace × List Event :=
  match w.files, refresh with
  | some files, false => (files, w, [])
  | _, _ =>
    let files := Scan.files disk w.roots
    (files, { w with files := some files }, [.filesFound files.length])

end Workspace

end RubyLanguageServer
