import RubyLanguageServer.Text.Basic
/-!
# Paths

Absolute paths in normal form. A relative path is taken from the working directory. One or two
leading slashes are kept as they are, three or more count as one.
-/
namespace RubyLanguageServer

namespace Path

def slash : CodePoint := '/'

/-- The leading slashes that a normal path keeps. -/
def leading (t : Text) : Text :=
  match (t.takeWhile (· = slash)).length with
  | 2 => [slash, slash]
  | _ => [slash]

/-- One component after those kept so far, the last of them first: empty components and single dots
are dropped, and two dots take the last component back. -/
def push (kept : List Text) (component : Text) : List Text :=
  if component = [] || component = Text.ofString "." then kept
  else if component = Text.ofString ".." then kept.tail
  else component :: kept

def components (t : Text) : List Text := ((t.splitOn slash).foldl push []).reverse

def normal (t : Text) : Text := leading t ++ Text.joinWith [slash] (components t)

def join (directory name : Text) : Text :=
  if directory.getLast? = some slash then directory ++ name else directory ++ slash :: name

/-- The absolute path in normal form, as seen from the working directory. -/
def absolute (current t : Text) : Text :=
  normal (if t.head? = some slash then t else join current t)

/-- The absolute paths of directories; none at all means the working directory. -/
def absoluteRoots (current : Text) (ts : List Text) : List Text :=
  if ts = [] then [absolute current []] else ts.map (absolute current)

def lastComponent (t : Text) : Text := (t.reverse.takeWhile (· ≠ slash)).reverse

/-- The extension of the last component with its dot; dots at its beginning start none. -/
def extension (t : Text) : Text :=
  let stem := (lastComponent t).dropWhile (· = CodePoint.ofChar '.')
  if stem.contains (CodePoint.ofChar '.') then
    '.' :: (stem.reverse.takeWhile (· ≠ CodePoint.ofChar '.')).reverse
  else []

end Path

end RubyLanguageServer
