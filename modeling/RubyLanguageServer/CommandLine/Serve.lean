import RubyLanguageServer.Server.Basic
/-!
# Serving from the command line

A session from its settings to its exit status, with the log as records of text. A log file is
opened before the server is assembled, and the log is added to what it holds. It may itself be one
of the Ruby files of the workspace, and is then read with what was logged before.
-/
namespace RubyLanguageServer

namespace CommandLine

def records (least : Level) (log : List Event) : List Text := (least.select log).map Event.record

/-- The exit status of a process whose session has ended. -/
def status : Session.Ending → Int
  | .exit code => code
  | .crash _ => 1

/-- The exit status of a process whose settings are rejected. -/
def rejectedStatus : Int := 2

/-- The failure that ends a session, if one does. -/
def crash? : Session.Ending → Option Failure
  | .exit _ => none
  | .crash f => some f

/-- The disk with a log file at a path, and the place of the file. -/
def makeLog (path : Text) (disk : Disk) : Except DiskError (Disk × Place) := do
  let made ← disk.write path id
  let place ← disk.locate path
  return (made, place)

/-- The machine with the log file that the settings name. -/
def openLog (settings : Settings) (machine : Machine) : Except Failure Machine :=
  match settings.logPath? machine.disk.current with
  | none => .ok machine
  | some path =>
    match makeLog path machine.disk with
    | .ok (disk, place) =>
      .ok { machine with disk, logFile := some { place, least := settings.level } }
    | .error e => .error (.cannotOpen path e)

/-- What a session leaves behind. -/
structure Served where
  status : Int
  crash : Option Failure := none
  frames : List Text
  log : List Text
deriving DecidableEq, Repr

/-- What is reported before the workspace is scanned. -/
def beforeScan (log : List Event) : List Event :=
  log.takeWhile fun e =>
    match e with
    | .filesFound _ => false
    | _ => true

/-- The machine as the scan of the workspace finds it. Files are read once, so that what is logged
behind the scan does not count. -/
def atScan (log : List Event) (machine : Machine) : Machine :=
  { machine with disk := machine.note (beforeScan log) machine.disk }

def runOn [Stack] (settings : Settings) (source : Source) (machine : Machine) :
    Except Workspace.Rejection (Session.Ending × Session Backend) := do
  let server ← Server.create settings machine
  let (ending, _, s) := server.run source
  return (ending, s)

/-- The run of a session whose log may be among the files of its workspace. What is reported before
the scan does not depend on the files, so a first run tells what the scan finds. -/
def runLogged [Stack] (settings : Settings) (source : Source) (machine : Machine) :
    Except Workspace.Rejection (Session.Ending × Session Backend) := do
  let (ending, s) ← runOn settings source machine
  if machine.logFile.isNone then return (ending, s)
  else runOn settings source (atScan s.log machine)

def serve [Stack] (settings : Settings) (machine : Machine) (source : Source) : Served :=
  match runLogged settings source machine with
  | .error e =>
    { status := rejectedStatus, frames := []
      log := records settings.level [.rejected e.message] }
  | .ok (ending, s) =>
    { status := status ending, crash := crash? ending, frames := s.contents
      log := records settings.level s.log }

end CommandLine

end RubyLanguageServer
