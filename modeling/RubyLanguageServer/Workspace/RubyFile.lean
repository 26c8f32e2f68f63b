import RubyLanguageServer.Workspace.Path
/-!
# Ruby files

A file is taken for Ruby source by the extension of its name, whatever its case.
-/
namespace RubyLanguageServer

namespace RubyFile

def extensions : List Text := [".rb", ".rake", ".gemspec", ".ru"]

/-- The names of directories that are not searched. -/
def ignoredDirectories : List Text := [".git", ".bundle", "node_modules", "tmp", "log"]

/-- The small form of a letter. The Kelvin sign is the one letter above ASCII whose small form is an
ASCII letter alone. -/
def smallLetter (c : CodePoint) : CodePoint := if c.val = 0x212a then 'k' else c.toLower

def isNamed (path : Text) : Bool :=
  extensions.contains ((Path.extension path).map smallLetter)

end RubyFile

end RubyLanguageServer
