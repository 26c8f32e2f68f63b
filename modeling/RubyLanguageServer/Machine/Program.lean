import RubyLanguageServer.Failure
import RubyLanguageServer.Log.File
import RubyLanguageServer.Text.Lines
/-!
# Programs

The machine on which a session runs: its disk, its executable programs, and what they have been
called with. A program stands at a place on the disk, and a command without a slash is looked for in
the directories of the search path. A program answers from its input and from the calls before. The
clock stands still during a session.
-/
namespace RubyLanguageServer

/-- A call of a program: its arguments, and what it reads. -/
structure Invocation where
  arguments : List Text
  input : Text
deriving DecidableEq, Repr

structure Completed where
  stdout : Bytes
  stderr : Bytes
  status : Int
deriving DecidableEq, Repr

/-- What a program gives, from its earlier calls and the new one. -/
abbrev Program := List Invocation → Invocation → Completed

structure Machine where
  disk : Disk := {}
  searchPath : List Text := []
  programs : List (Place × Program) := []
  invocations : List (Place × Invocation) := []
  clock : Text := "2026-01-01 00:00:00,000"
  logFile : Option LogFile := none

namespace Machine

def note (m : Machine) (log : List Event) (d : Disk) : Disk :=
  match m.logFile with
  | none => d
  | some file => file.append m.clock log d

structure Output where
  stdout : Text
  stderr : Text
  status : Int
deriving DecidableEq, Repr

def invocationsOf (m : Machine) (place : Place) : List Invocation :=
  m.invocations.filterMap fun (p, i) => if p = place then some i else none

def programAt? (m : Machine) (place : Place) : Option Program :=
  m.programs.findSome? fun (p, program) => if p = place then some program else none

/-- The program to which a path leads, and its place. What is there but no program may not be
executed. -/
def executable (m : Machine) (path : Text) : Except DiskError (Place × Program) := do
  let place ← m.disk.locate path
  match m.programAt? place, Disk.entryAt place m.disk.root with
  | some program, some _ => .ok (place, program)
  | none, some _ => .error .denied
  | _, none => .error .notFound

def isAbsence (e : DiskError) : Bool := e = .notFound || e = .notDirectory

/-- The program to which the first path leads that leads to one. If none does, the first reason
counts that is no absence, and otherwise the last. -/
def firstExecutable (m : Machine) : List Text → Except DiskError (Place × Program)
  | [] => .error .notFound
  | [path] => m.executable path
  | path :: paths =>
    match m.executable path, m.firstExecutable paths with
    | .ok found, _ => .ok found
    | _, .ok found => .ok found
    | .error e, .error later => .error (if isAbsence e then later else e)

def pathsOf (m : Machine) (command : Text) : List Text :=
  if command.contains Path.slash then [command] else m.searchPath.map (Path.join · command)

def decodeOutput (bytes : Bytes) : Except Failure Text :=
  match Utf8.decode bytes with
  | .ok t => .ok t.unifyNewlines
  | .error flaw => .error (.badOutput flaw)

def readOutput (c : Completed) : Except Failure Output := do
  let stdout ← decodeOutput c.stdout
  let stderr ← decodeOutput c.stderr
  return { stdout, stderr, status := c.status }

def launch (command : Text) (arguments : List Text) (input : Text) (m : Machine) :
    Except Failure Output × Machine :=
  if command.contains CodePoint.nul then (.error .embeddedNul, m)
  else
    match m.firstExecutable (m.pathsOf command) with
    | .error e => (.error (.cannotStart command e), m)
    | .ok (place, program) =>
      match Utf8.encode input with
      | .error surrogates => (.error (.badInput surrogates), m)
      | .ok _ =>
        let invocation : Invocation := { arguments, input }
        (readOutput (program (m.invocationsOf place) invocation),
          { m with invocations := m.invocations ++ [(place, invocation)] })

end Machine

end RubyLanguageServer
