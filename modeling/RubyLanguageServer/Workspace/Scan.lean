import RubyLanguageServer.Machine.Disk
import RubyLanguageServer.Workspace.RubyFile
/-!
# The scan of the workspace

The Ruby files below the roots, in ascending order and each once. Directories of certain names are
passed over, as are those whose paths are too long to be opened, and a linked directory is neither
entered nor taken for a file.
-/
namespace RubyLanguageServer

namespace Scan

mutual

/-- The Ruby files that an entry of a directory gives. -/
def entryFiles (isDirectory : Text → Bool) (directory name : Text) : Entry → List Text
  | .file _ | .device => if RubyFile.isNamed name then [Path.join directory name] else []
  | .link _ =>
    if RubyFile.isNamed name && !isDirectory (Path.join directory name) then
      [Path.join directory name]
    else []
  | .directory entries =>
    if RubyFile.ignoredDirectories.contains name ||
        Utf8.size (Path.join directory name) > Disk.maxPath then []
    else directoryFiles isDirectory (Path.join directory name) entries

def directoryFiles (isDirectory : Text → Bool) (directory : Text) :
    List (Text × Entry) → List Text
  | [] => []
  | (name, entry) :: rest =>
    entryFiles isDirectory directory name entry ++ directoryFiles isDirectory directory rest

end

/-- The Ruby files below a root; none below what is no directory. -/
def rootFiles (disk : Disk) (root : Text) : List Text :=
  match disk.find root with
  | .ok (.directory entries) => directoryFiles disk.isDirectory root entries
  | _ => []

def files (disk : Disk) (roots : List Text) : List Text :=
  Text.sortDistinct (roots.flatMap (rootFiles disk))

end Scan

end RubyLanguageServer
