import RubyLanguageServer.CommandLine.Usage
import RubyLanguageServer.Server.Basic
/-!
# What the command line asks for

Options win over variables of the environment, which win over defaults; an empty variable counts as
unset. The values are checked in the order in which the options were given, and then those of the
remaining options.
-/
namespace RubyLanguageServer

namespace CommandLine

open Usage

/-- The variable of the environment that stands in for an option. -/
def standIn? : CommandOption → Option Text
  | .root => some "RBLSP_ROOT"
  | .ruby => some "RBLSP_RUBY"
  | .completer => some "RBLSP_RCT_COMPLETE"
  | .debug | .noDebug => some "RBLSP_DEBUG"
  | .logFile => some "RBLSP_LOG_FILE"
  | .version | .help => none

/-- What stands against a value: it is refused, or it cannot even be looked at. -/
inductive Objection where
  | misuse (e : ValueError)
  | failure (f : Failure)
deriving DecidableEq, Repr

/-- The arguments and the environment of a process. -/
structure Invoked where
  arguments : Arguments
  environment : Entries Text

namespace Invoked

/-- The value of an option's variable, if it is set. -/
def fromEnvironment? (i : Invoked) (option : CommandOption) : Option Text := do
  let name ← standIn? option
  let value ← Entries.find? name i.environment
  if value = [] then none else some value

def value? (i : Invoked) (option : CommandOption) : Option Text :=
  i.arguments.last? option <|> i.fromEnvironment? option

/-- The directories that are asked for. A variable holds several, divided by colons. -/
def roots (i : Invoked) : List Text :=
  match i.arguments.valuesOf .root, i.fromEnvironment? .root with
  | [], some value => value.splitOn ':'
  | given, _ => given

def flagWords : List (Text × Bool) := [
  ("", false), ("0", false), ("f", false), ("false", false), ("n", false), ("no", false),
  ("off", false), ("1", true), ("on", true), ("t", true), ("true", true), ("y", true),
  ("yes", true)]

def debug (i : Invoked) : Except ValueError Bool :=
  let given := i.arguments.options.filterMap fun (option, _) =>
    match option with
    | .debug => some true
    | .noDebug => some false
    | _ => none
  match given.getLast?, i.fromEnvironment? .debug with
  | some b, _ => .ok b
  | none, none => .ok false
  | none, some value =>
    match Entries.find? value.trim.toLower flagWords with
    | some b => .ok b
    | none => .error (.notFlag value)

/-- What is wrong with a directory that is asked for. -/
def rootFault? (disk : Disk) (path : Text) : Option Objection :=
  if path.contains CodePoint.nul then some (.failure .embeddedNul)
  else
    match disk.find path with
    | .error _ => some (.misuse (.noDirectory path))
    | .ok (.file _) => some (.misuse (.isFile path))
    | .ok _ => none

/-- What is wrong with a log file that is asked for. A single dash is not looked up. -/
def logFileFault? (disk : Disk) (path : Text) : Option Objection :=
  if path = Text.ofString "-" then none
  else if path.contains CodePoint.nul then some (.failure .embeddedNul)
  else if disk.isDirectory path then some (.misuse (.isDirectory path))
  else none

def fault? (disk : Disk) (i : Invoked) : CommandOption → Option Objection
  | .root => i.roots.findSome? (rootFault? disk)
  | .debug | .noDebug =>
    match i.debug with
    | .ok _ => none
    | .error e => some (.misuse e)
  | .logFile => (i.value? .logFile).bind (logFileFault? disk)
  | _ => none

/-- The options in the order in which their values are checked. -/
def checkOrder (i : Invoked) : List CommandOption :=
  i.arguments.options.map Prod.fst ++ CommandOption.all

/-- The settings that are asked for in a working directory. -/
def settings (current : Text) (i : Invoked) (debug : Bool) : Settings :=
  Settings.normalize current {
    roots := i.roots
    ruby := (i.value? .ruby).getD "ruby"
    completer := (i.value? .completer).getD "rct-complete"
    debug
    logFile := i.value? .logFile }

end Invoked

/-- What to do: print a text, refuse the arguments, give up, or serve. -/
inductive Plan where
  | print (text : Text)
  | refuse (e : UsageError)
  | crash (f : Failure)
  | serve (settings : Settings)
deriving DecidableEq, Repr

/-- What the first option for information asks to print. -/
def information? (a : Arguments) : Option Text :=
  a.options.findSome? fun (option, _) =>
    match option with
    | .version => some versionText
    | .help => some helpText
    | _ => none

def plan (disk : Disk) (environment : Entries Text) (arguments : List Text) : Plan :=
  match Arguments.parse arguments with
  | .error e => .refuse (.parse e)
  | .ok arguments =>
    match information? arguments with
    | some text => .print text
    | none =>
      let i : Invoked := { arguments, environment }
      match i.checkOrder.findSome? (i.fault? disk) with
      | some (.misuse e) => .refuse (.value e)
      | some (.failure f) => .crash f
      | none =>
        match arguments.extras, i.debug with
        | [], .ok debug => .serve (i.settings disk.current debug)
        | [], .error e => .refuse (.value e)
        | extras, _ => .refuse (.extras extras)

end CommandLine

end RubyLanguageServer
