import RubyLanguageServer.CommandLine.Similarity
/-!
# Command line arguments

An option is written with two dashes, and its value behind an equals sign or as the next argument.
Two dashes alone end the options.
-/
namespace RubyLanguageServer

inductive CommandOption where
  | root
  | ruby
  | completer
  | debug
  | noDebug
  | logFile
  | version
  | help
deriving DecidableEq, Repr

namespace CommandOption

def spelling : CommandOption → Text
  | .root => "--root"
  | .ruby => "--ruby"
  | .completer => "--rct-complete"
  | .debug => "--debug"
  | .noDebug => "--no-debug"
  | .logFile => "--log-file"
  | .version => "--version"
  | .help => "--help"

def all : List CommandOption :=
  [.root, .ruby, .completer, .debug, .noDebug, .logFile, .version, .help]

def takesValue : CommandOption → Bool
  | .root | .ruby | .completer | .logFile => true
  | .debug | .noDebug | .version | .help => false

def find? (name : Text) : Option CommandOption := all.find? (·.spelling = name)

end CommandOption

/-- What the arguments give: options with their values, and arguments that are no options. -/
structure Arguments where
  options : List (CommandOption × Text) := []
  extras : List Text := []
deriving DecidableEq, Repr

namespace Arguments

inductive ParseError where
  | unknown (name : Text) (near : List Text)
  | needsValue (name : Text)
  | takesNoValue (name : Text)
deriving DecidableEq, Repr

/-- An option's name, and the value behind an equals sign. -/
def splitValue (argument : Text) : Text × Option Text :=
  match argument.dropWhile (· ≠ CodePoint.ofChar '=') with
  | [] => (argument, none)
  | _ :: value => (argument.takeWhile (· ≠ CodePoint.ofChar '='), some value)

/-- The error for an option that does not exist. Behind a single dash each letter would be an option
of its own. -/
def unknown (argument name : Text) : ParseError :=
  if (argument.after? "--").isSome then
    .unknown name (Similarity.suggestions name (CommandOption.all.map CommandOption.spelling))
  else .unknown (argument.take 2) []

def consOption (option : CommandOption) (value : Text) (a : Arguments) : Arguments :=
  { a with options := (option, value) :: a.options }

def consExtra (argument : Text) (a : Arguments) : Arguments :=
  { a with extras := argument :: a.extras }

def parse : List Text → Except ParseError Arguments
  | [] => .ok {}
  | argument :: rest =>
    if argument = Text.ofString "--" then .ok { extras := rest }
    else if argument.head? = some (CodePoint.ofChar '-') && 1 < argument.length then
      let (name, value) := splitValue argument
      match CommandOption.find? name with
      | none => .error (unknown argument name)
      | some option =>
        match option.takesValue, value with
        | true, some value => (parse rest).map (consOption option value)
        | true, none =>
          match rest with
          | [] => .error (.needsValue name)
          | value :: rest => (parse rest).map (consOption option value)
        | false, some _ => .error (.takesNoValue name)
        | false, none => (parse rest).map (consOption option [])
    else (parse rest).map (consExtra argument)

def valuesOf (a : Arguments) (option : CommandOption) : List Text :=
  a.options.filterMap fun (o, value) => if o = option then some value else none

def last? (a : Arguments) (option : CommandOption) : Option Text := (a.valuesOf option).getLast?

end Arguments

end RubyLanguageServer
