import RubyLanguageServer.Analysis.ConstantIndex
import RubyLanguageServer.Machine.Program
/-!
# The analyzers of the server

The linter runs a Ruby interpreter as a syntax checker. One provider runs a completer of methods,
the other completes constants from the index.
-/
namespace RubyLanguageServer

/-- The world of the server's analyzers. -/
structure Backend where
  machine : Machine
  index : ConstantIndex := {}

namespace Backend

def launch (command : Text) (arguments : List Text) (input : Text) :
    Probe Backend (Except Failure Machine.Output) := do
  let backend ← Probe.world
  let (outcome, machine) := backend.machine.launch command arguments input
  Probe.setWorld { backend with machine }
  return outcome

def check (command text : Text) : Probe Backend (List Issue) := do
  Probe.report (.checking (command ++ " -wc"))
  match ← launch command ["-wc"] text with
  | .error failure => throw failure
  | .ok output =>
    match Issue.ofOutput output.stderr with
    | .ok issues => return issues
    | .error e => throw (.excess e)

def linter (command : Text) : Linter Backend := { name := "ruby-wc", analyze := check command }

/-- The arguments of the method completer, which counts lines from one. -/
def completerArguments (query : Query) : Except Numeral.Excess (List Text) := do
  let line ← Numeral.write (query.line + 1)
  let column ← Numeral.write query.character
  return ["--completion-class-info", "--line=" ++ line, "--column=" ++ column]

/-- The candidates that the method completer prints; none if it cannot be started or fails. -/
def completeMethods (command : Text) (query : Query) (store : DocumentStore) :
    Probe Backend (List Candidate) := do
  let text ← Probe.text store query.uri
  match completerArguments query with
  | .error e => throw (.excess e)
  | .ok arguments =>
    Probe.report (.completing (Text.joinWith " " (command :: arguments)) query.uri)
    match ← launch command arguments text with
    | .error (.cannotStart command e) =>
      Probe.report (.cannotRun command (e.message command))
      return []
    | .error failure => throw failure
    | .ok output =>
      if output.status = 0 then return Candidate.ofOutput output.stdout
      else
        Probe.report (.completerFailed output.status output.stderr.trim)
        return []

def methodProvider (command : Text) : Provider Backend :=
  { name := "RcodetoolsProvider", complete := completeMethods command }

/-- The constants that begin with the path before the position. -/
def completeConstants (query : Query) (store : DocumentStore) :
    Probe Backend (List Candidate) := do
  let text ← Probe.text store query.uri
  match Constant.prefixAt text query.line query.character with
  | [] => return []
  | path =>
    Probe.report (.completingConstants path)
    let backend ← Probe.world
    let machine := backend.machine
    let (names, index, log) := backend.index.names machine.note machine.disk store
    Probe.setWorld { backend with index }
    Probe.reportAll log
    return ConstantIndex.candidates path names

def constantProvider : Provider Backend :=
  { name := "AdHocProvider", complete := completeConstants }

end Backend

end RubyLanguageServer
