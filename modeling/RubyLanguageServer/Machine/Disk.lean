import RubyLanguageServer.Text.Entries
import RubyLanguageServer.Text.Quoted
import RubyLanguageServer.Text.Utf8
import RubyLanguageServer.Workspace.Path
/-!
# The disk

Files, directories, symbolic links and devices as a tree. A path leads from the root directory, or
from the working directory if it is relative, to a place, with links on the way replaced by their
targets. A device holds nothing, and what is written to it is gone.
-/
namespace RubyLanguageServer

inductive Entry where
  | file (content : Bytes)
  | directory (entries : List (Text × Entry))
  | link (target : Text)
  | device
deriving Inhabited

inductive DiskError where
  | notFound
  | denied
  | notDirectory
  | isDirectory
  | nameTooLong
  | linkLoop
deriving DecidableEq, Repr

def DiskError.message (path : Text) : DiskError → Text
  | .notFound => "[Errno 2] No such file or directory: " ++ path.quoted
  | .denied => "[Errno 13] Permission denied: " ++ path.quoted
  | .notDirectory => "[Errno 20] Not a directory: " ++ path.quoted
  | .isDirectory => "[Errno 21] Is a directory: " ++ path.quoted
  | .nameTooLong => "[Errno 36] File name too long: " ++ path.quoted
  | .linkLoop => "[Errno 40] Too many levels of symbolic links: " ++ path.quoted

/-- A place on the disk: the names on the way to it from the root directory. -/
abbrev Place := List Text

/-- The entries of the root directory, and the path of the working directory. -/
structure Disk where
  root : List (Text × Entry) := []
  current : Text := [Path.slash]
deriving Inhabited

namespace Disk

def maxLinks : Nat := 40

def maxName : Nat := 255

def maxPath : Nat := 4095

/-- What stands at a place below a directory. -/
def entryAt : Place → List (Text × Entry) → Option Entry
  | [], entries => some (.directory entries)
  | name :: rest, entries =>
    match Entries.find? name entries with
    | some (.directory inner) => entryAt rest inner
    | some entry => if rest = [] then some entry else none
    | none => none

/-- What a path is followed for: to use what is there, or to make a file if nothing is. -/
inductive Purpose where
  | use
  | make
deriving DecidableEq, Repr

/-- Why no file is at the last name before the given ones. Slashes at the end ask for a directory,
and no directory is made. -/
def refusal (purpose : Purpose) (rest : List Text) (reason : DiskError) : DiskError :=
  if purpose = .make && rest.all (· = []) then .isDirectory else reason

/-- The place to which names lead from a directory, which is given by the names on the way to it,
the last first, as the result is. Two dots lead to the directory above, and a link is replaced by
its target. Only the last name may be a new one. -/
def settle (root : List (Text × Entry)) (purpose : Purpose) (links : Nat)
    (here names : List Text) : Except DiskError (List Text) :=
  match names with
  | [] => .ok here
  | name :: rest =>
    if name = [] || name = Text.ofString "." then settle root purpose links here rest
    else if name = Text.ofString ".." then settle root purpose links here.tail rest
    else if Utf8.size name > maxName then .error .nameTooLong
    else
      match entryAt (name :: here).reverse root with
      | none =>
        if rest = [] then .ok (name :: here) else .error (refusal purpose rest .notFound)
      | some (.file _) | some .device =>
        if rest = [] then .ok (name :: here) else .error (refusal purpose rest .notDirectory)
      | some (.directory _) => settle root purpose links (name :: here) rest
      | some (.link target) =>
        match links with
        | 0 => .error .linkLoop
        | links + 1 =>
          let names := target.splitOn Path.slash ++ rest
          settle root purpose links (if target.head? = some Path.slash then [] else here) names
termination_by (links, names.length)

/-- The names on the way to the place from which a path leads, the last first. -/
def start (d : Disk) (path : Text) : List Text :=
  if path.head? = some Path.slash then [] else (Path.components d.current).reverse

/-- The place to which a path leads, where an entry stands or can be made. -/
def locateTo (purpose : Purpose) (d : Disk) (path : Text) : Except DiskError Place :=
  if path = [] then .error .notFound
  else if Utf8.size path > maxPath then .error .nameTooLong
  else (settle d.root purpose maxLinks (d.start path) (path.splitOn Path.slash)).map List.reverse

def locate (d : Disk) (path : Text) : Except DiskError Place := d.locateTo .use path

def find (d : Disk) (path : Text) : Except DiskError Entry := do
  let place ← d.locate path
  match entryAt place d.root with
  | some entry => .ok entry
  | none => .error .notFound

def isDirectory (d : Disk) (path : Text) : Bool :=
  match d.find path with
  | .ok (.directory _) => true
  | _ => false

def read (d : Disk) (path : Text) : Except DiskError Bytes :=
  match d.find path with
  | .ok (.file content) => .ok content
  | .ok .device => .ok []
  | .ok _ => .error .isDirectory
  | .error e => .error e

/-- Puts an entry below a directory, with the directories on the way to it. -/
def insertBelow (new : Entry) : Place → List (Text × Entry) → List (Text × Entry)
  | [], entries => entries
  | [name], entries => Entries.insert name new entries
  | name :: rest, entries =>
    let inner :=
      match Entries.find? name entries with
      | some (.directory inner) => inner
      | _ => []
    Entries.insert name (.directory (insertBelow new rest inner)) entries

def eraseBelow : Place → List (Text × Entry) → List (Text × Entry)
  | [], entries => entries
  | [name], entries => entries.filter (·.1 ≠ name)
  | name :: rest, entries =>
    match Entries.find? name entries with
    | some (.directory inner) =>
      Entries.insert name (.directory (eraseBelow rest inner)) entries
    | _ => entries

/-- The place that a path names, through links to directories but not through a link at its end. The
directories on the way need not be there. -/
def placeOf (d : Disk) (path : Text) : Place :=
  match (Path.components (Path.absolute d.current path)).reverse with
  | [] => []
  | name :: above =>
    let enter (here : List Text) (directory : Text) : List Text :=
      match settle d.root .use maxLinks here [directory] with
      | .ok place => place
      | .error _ => directory :: here
    (name :: above.reverse.foldl enter []).reverse

/-- The disk with an entry at a path, and with the directories on the way to it. -/
def insert (d : Disk) (path : Text) (new : Entry) : Disk :=
  { d with root := insertBelow new (d.placeOf path) d.root }

def erase (d : Disk) (path : Text) : Disk :=
  { d with root := eraseBelow (d.placeOf path) d.root }

/-- The disk with a file to which a path leads, in a directory that is there: with its content
changed, or as a new file if it is not there. -/
def write (d : Disk) (path : Text) (change : Bytes → Bytes) : Except DiskError Disk := do
  let place ← d.locateTo .make path
  match entryAt place d.root with
  | some (.file content) =>
    .ok { d with root := insertBelow (.file (change content)) place d.root }
  | none => .ok { d with root := insertBelow (.file (change [])) place d.root }
  | some .device => .ok d
  | some _ => .error .isDirectory

end Disk

end RubyLanguageServer
