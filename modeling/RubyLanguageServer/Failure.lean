import RubyLanguageServer.Machine.Disk
import RubyLanguageServer.Wire.Payload
/-!
# Failures

Why a handler, a linter or a completion provider does not come to a result, or the process does not
come to a session. A handler ends the session by failing with a shutdown.
-/
namespace RubyLanguageServer

inductive Failure where
  | invalid (failure : Schema.Failure)
  | unencodable (e : EncodeError)
  | noDocument (uri : Text)
  | cannotStart (command : Text) (e : DiskError)
  | cannotOpen (path : Text) (e : DiskError)
  | embeddedNul
  | badInput (surrogates : Utf8.LoneSurrogates)
  | badOutput (flaw : Utf8.Flaw)
  | excess (e : Numeral.Excess)
  | shutdown (code : Int) (reason : Text)
  | other (message : Text)
deriving DecidableEq, Repr

namespace Failure

def message : Failure → Text
  | .invalid failure => failure.message
  | .unencodable e => e.message
  | .noDocument uri => "Document not found: " ++ uri
  | .cannotStart command e => e.message command
  | .cannotOpen path e => e.message path
  | .embeddedNul => "embedded null byte"
  | .badInput surrogates => surrogates.message
  | .badOutput flaw => flaw.message
  | .excess e => e.message
  | .shutdown code [] => "Shutdown requested (exit code " ++ Numeral.ofInt code ++ ")"
  | .shutdown _ reason => reason
  | .other message => message

/-- The code under which a client is told of a failure: the fault is the client's if its parameters
do not validate, and the server's otherwise. -/
def code : Failure → Int
  | .invalid _ => -32602
  | _ => -32603

end Failure

end RubyLanguageServer
