import RubyLanguageServer.CommandLine.Plan
import RubyLanguageServer.CommandLine.Serve
/-!
# The command

Serves one session on the standard streams and logs to standard error. Only the streams are used:
the directories named as roots are taken to be there and to be empty, and no other program is
started, so that completion works from the open documents.
-/
namespace RubyLanguageServer

namespace Command

def toBytes (bytes : ByteArray) : Bytes := bytes.toList

def ofBytes (bytes : Bytes) : ByteArray := ⟨bytes.toArray⟩

/-- The variables of the environment that are set. -/
def environment : IO (Entries Text) := do
  let mut found : Entries Text := []
  for option in CommandOption.all do
    if let some name := CommandLine.standIn? option then
      if let some value ← IO.getEnv name.toString then
        found := Entries.insert name (Text.ofString value) found
  return found

/-- A machine with the directories that the command line names. -/
def machine (environment : Entries Text) (arguments : List Text) : Machine :=
  let roots :=
    match Arguments.parse arguments with
    | .ok arguments => CommandLine.Invoked.roots { arguments, environment }
    | .error _ => []
  { disk := roots.foldl (fun disk root => disk.insert root (.directory [])) {} }

/-- Reads until the next reading is decided or the input has ended. -/
partial def fill (input : IO.FS.Stream) (pending : Bytes) : IO Bytes := do
  let wanted := Frame.wanted pending
  if wanted = 0 then return pending
  let portion ← input.read wanted.toUSize
  if portion.isEmpty then return pending
  fill input (pending ++ toBytes portion)

def printRecords (lines : List Text) : IO Unit := do
  for line in lines do
    IO.eprintln line.toString

/-- Writes what a session has written and logged. -/
def flush (level : Level) (s : Session Backend) : IO Unit := do
  let output ← IO.getStdout
  output.write (ofBytes s.output)
  output.flush
  printRecords (CommandLine.records level s.log)

/-- Processes messages as they come until the session ends. -/
partial def converse [Stack] (level : Level) (r : Registry Backend) (pending : Bytes)
    (s : Session Backend) : IO Int := do
  let pending ← fill (← IO.getStdin) pending
  let (reading, source) := Frame.read { bytes := pending }
  let (ending, s) := s.step r reading
  flush level s
  match ending with
  | some (.crash failure) =>
    printRecords [failure.message]
    return CommandLine.status (.crash failure)
  | some ending => return CommandLine.status ending
  | none => converse level r source.bytes { s with outbox := [], journal := [] }

def serve [Stack] (settings : Settings) (machine : Machine) : IO Int := do
  match Server.create settings machine with
  | .error e =>
    printRecords (CommandLine.records settings.level [.rejected e.message])
    return CommandLine.rejectedStatus
  | .ok server =>
    let s := server.session.start
    flush settings.level s
    converse settings.level server.registry [] { s with journal := [] }

/-- The stack of the process. -/
@[reducible]
def stack : Stack := .withSpare 492

end Command

end RubyLanguageServer

open RubyLanguageServer in
def main (arguments : List String) : IO UInt32 := do
  let arguments := arguments.map Text.ofString
  let environment ← Command.environment
  let machine := Command.machine environment arguments
  let status ←
    match CommandLine.plan machine.disk environment arguments with
    | .print text => do
      IO.print text.toString
      pure 0
    | .refuse e => do
      IO.eprintln e.message.toString
      pure CommandLine.rejectedStatus
    | .crash failure => do
      IO.eprintln failure.message.toString
      pure (CommandLine.status (.crash failure))
    | .serve settings => @Command.serve Command.stack settings machine
  return (status % 256).toNat.toUInt32
