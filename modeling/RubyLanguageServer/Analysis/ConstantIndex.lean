import RubyLanguageServer.Analysis.Analyzer
import RubyLanguageServer.Analysis.Constant
import RubyLanguageServer.Workspace.Basic
import RubyLanguageServer.Workspace.Uri
/-!
# The index of constants

The constants that a project defines, in its open documents and in the Ruby files of its workspace.
A file is read once; while it is open as a document its content on disk does not count. One of the
files may be the log, so that a report changes the disk for the files that are read behind it.
-/
namespace RubyLanguageServer

/-- The workspace, and the constants of the files read so far. -/
structure ConstantIndex where
  workspace : Option Workspace := none
  known : Entries (List Text) := []
deriving DecidableEq, Repr

namespace ConstantIndex

def openPaths (store : DocumentStore) : List Text :=
  store.uris.filterMap fun uri => (Uri.toPath uri).toOption

def openNames (store : DocumentStore) : List Text :=
  store.items.flatMap fun (_, text) => Constant.namesIn text

def fileText (content : Bytes) : Text := (Utf8.decodeLossy content).unifyNewlines

/-- The constants of a file on disk; none, and a report, if it cannot be read. -/
def readNames (disk : Disk) (path : Text) : List Text × List Event :=
  match disk.read path with
  | .ok content => (Constant.namesIn (fileText content), [])
  | .error e => ([], [.unreadableFile path (e.message path)])

/-- The constants of the given files, the files known afterwards, and what is reported. What a
report does to the disk is given by `note`. -/
def fileNames (note : List Event → Disk → Disk) (disk : Disk) :
    List Text → Entries (List Text) → List Text × Entries (List Text) × List Event
  | [], known => ([], known, [])
  | path :: paths, known =>
    let (names, known, log) :=
      match Entries.find? path known with
      | some names => (names, known, [])
      | none =>
        let (names, log) := readNames disk path
        (names, Entries.insert path names known, log)
    let (others, known, more) := fileNames note (note log disk) paths known
    (names ++ others, known, log ++ more)

/-- All constants of the project, the index afterwards, and what is reported. -/
def names (note : List Event → Disk → Disk) (disk : Disk) (store : DocumentStore)
    (index : ConstantIndex) : List Text × ConstantIndex × List Event :=
  match index.workspace with
  | none => (openNames store, index, [])
  | some workspace =>
    let (files, workspace, log) := workspace.list disk false
    let shadowed := openPaths store
    let (found, known, more) :=
      fileNames note (note log disk) (files.filter (!shadowed.contains ·)) index.known
    (openNames store ++ found, { workspace := some workspace, known }, log ++ more)

/-- The names that begin with a path, each once, as candidates. -/
def candidates (path : Text) (names : List Text) : List Candidate :=
  (names.filter fun n => (n.after? path).isSome).eraseDups.map fun name =>
    { name, kind := .className }

end ConstantIndex

end RubyLanguageServer
