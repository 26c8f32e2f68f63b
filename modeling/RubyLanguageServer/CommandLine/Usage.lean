import RubyLanguageServer.CommandLine.Arguments
import RubyLanguageServer.Text.ControlSequence
import RubyLanguageServer.Text.Quoted
/-!
# Usage

The help text, the version, and what is said of arguments that cannot be used.
-/
namespace RubyLanguageServer

namespace Usage

def versionText : Text := "rblsp, version 0.1.0\n"

def usageLine : Text := "Usage: rblsp [OPTIONS]\n"

def helpLines : List Text := [
  "",
  "  Run the Ruby language server on stdin/stdout.",
  "",
  "  Args:     roots: Project root directories.     ruby_executable: Ruby",
  "  interpreter used for diagnostics.     rct_complete_command: rct-complete",
  "  executable used for completion.     debug: Whether to enable debug logging.",
  "  log_file: Optional log file path.",
  "",
  "Options:",
  "  --root DIRECTORY      Project root directory (repeatable, defaults to the",
  "                        current directory)",
  "  --ruby TEXT           Ruby interpreter used for diagnostics  [default: ruby]",
  "  --rct-complete TEXT   rct-complete executable used for method completion",
  "                        [default: rct-complete]",
  "  --debug / --no-debug  Enable debug logging",
  "  --log-file FILE       Write logs to this file instead of stderr",
  "  --version             Show the version and exit.",
  "  --help                Show this message and exit."]

def helpText : Text := usageLine ++ helpLines.flatMap fun line => line ++ Text.ofString "\n"

inductive ValueError where
  | noDirectory (path : Text)
  | isFile (path : Text)
  | isDirectory (path : Text)
  | notFlag (value : Text)
deriving DecidableEq, Repr

def ValueError.message : ValueError → Text
  | .noDirectory path =>
    "Invalid value for '--root': Directory " ++ path.quoted ++ " does not exist."
  | .isFile path => "Invalid value for '--root': Directory " ++ path.quoted ++ " is a file."
  | .isDirectory path =>
    "Invalid value for '--log-file': File " ++ path.quoted ++ " is a directory."
  | .notFlag value =>
    "Invalid value for '--debug': " ++ value.quoted ++ " is not a valid boolean. " ++
      "Recognized values: , 0, 1, f, false, n, no, off, on, t, true, y, yes"

inductive UsageError where
  | parse (e : Arguments.ParseError)
  | value (e : ValueError)
  | extras (arguments : List Text)
deriving DecidableEq, Repr

namespace UsageError

/-- What is said of words that may have been meant. -/
def hint : List Text → Text
  | [] => []
  | [name] => " Did you mean " ++ name.quoted ++ "?"
  | names => " (Did you mean one of: " ++ Text.joinWith ", " (names.map Text.quoted) ++ "?)"

def complaint : UsageError → Text
  | .parse (.unknown name near) => "No such option " ++ name.quoted ++ "." ++ hint near
  | .parse (.needsValue name) => "Option " ++ name.quoted ++ " requires an argument."
  | .parse (.takesNoValue name) => "Option " ++ name.quoted ++ " does not take a value."
  | .value e => e.message
  | .extras [argument] => "Got unexpected extra argument (" ++ argument ++ ")"
  | .extras arguments =>
    "Got unexpected extra arguments (" ++ Text.joinWith " " arguments ++ ")"

def showsUsage : UsageError → Bool
  | .parse (.needsValue _) | .parse (.takesNoValue _) => false
  | _ => true

/-- What is shown of the error, without control sequences. -/
def message (e : UsageError) : Text :=
  let usage : Text :=
    if e.showsUsage then usageLine ++ Text.ofString "Try 'rblsp --help' for help.\n\n" else []
  Text.plain (usage ++ Text.ofString "Error: " ++ e.complaint)

end UsageError

end Usage

end RubyLanguageServer
