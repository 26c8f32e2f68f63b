import RubyLanguageServer.Text.Quoted
import RubyLanguageServer.Wire.Message
/-!
# Log events

What the server reports while it runs. An event has a level, the name of the part that reports it,
and a message; all wording stands here.
-/
namespace RubyLanguageServer

inductive Level where
  | debug
  | info
  | warning
  | error
deriving DecidableEq, Repr

namespace Level

def name : Level → Text
  | .debug => "DEBUG"
  | .info => "INFO"
  | .warning => "WARNING"
  | .error => "ERROR"

def rank : Level → Nat
  | .debug => 0
  | .info => 1
  | .warning => 2
  | .error => 3

end Level

inductive Event where
  | received (method : Text) (id : Option RequestId)
  | sending (subject : Text)
  | called (method : Text)
  | ignored (method : Text)
  | handlerFailed (method cause : Text)
  | serving (roots : Nat)
  | skipped (reason : Text)
  | aborted (reason : Text)
  | inputClosed
  | stopped (reason : Text)
  | caching (length : Nat) (uri : Text)
  | nothingToLint (uri : Text)
  | linterFailed (linter uri : Text)
  | publishing (count : Nat) (uri : Text)
  | emptyChange (uri : Text)
  | noText (provider uri : Text)
  | providerFailed (provider uri : Text)
  | checking (command : Text)
  | completing (command uri : Text)
  | cannotRun (command reason : Text)
  | completerFailed (code : Int) (complaint : Text)
  | completingConstants (path : Text)
  | unreadableFile (path reason : Text)
  | workspaceOpened (roots : List Text)
  | filesFound (count : Nat)
  | rejected (reason : Text)
deriving DecidableEq, Repr

namespace Event

def level : Event → Level
  | .received .. | .sending .. | .called .. | .ignored .. | .caching .. | .nothingToLint ..
  | .publishing .. | .emptyChange .. | .noText .. | .checking .. | .completing ..
  | .completingConstants .. => .debug
  | .serving .. | .inputClosed | .stopped .. | .workspaceOpened .. | .filesFound .. => .info
  | .skipped .. | .cannotRun .. | .completerFailed .. | .unreadableFile .. => .warning
  | .handlerFailed .. | .aborted .. | .linterFailed .. | .providerFailed .. | .rejected .. => .error

/-- The name of the part of the server that reports the event. -/
def origin : Event → Text
  | .received .. | .sending .. => "rblsp.transport"
  | .called .. | .ignored .. | .handlerFailed .. => "rblsp.dispatcher"
  | .serving .. | .skipped .. | .aborted .. | .inputClosed | .stopped .. => "rblsp"
  | .caching .. => "rblsp.file_store"
  | .nothingToLint .. | .linterFailed .. | .publishing .. | .emptyChange .. | .noText ..
  | .providerFailed .. => "rblsp.handlers"
  | .checking .. => "rblsp.linter.ruby_wc"
  | .completing .. | .cannotRun .. | .completerFailed .. =>
    "rblsp.completion_provider.rcodetools"
  | .completingConstants .. | .unreadableFile .. => "rblsp.completion_provider.ad_hoc"
  | .workspaceOpened .. | .filesFound .. => "rblsp.workspace"
  | .rejected .. => "root"

def message : Event → Text
  | .received method id =>
    "Received LSP message: " ++ method ++ " (id=" ++ (id.map RequestId.toText).getD "None" ++ ")"
  | .sending subject => "Sending LSP message: " ++ subject
  | .called method => "Method: " ++ method ++ " called"
  | .ignored method => "Ignore: " ++ method
  | .handlerFailed method cause => "Handler for " ++ method ++ " failed: " ++ cause
  | .serving roots => "Serving " ++ Numeral.ofNat roots ++ " workspace root(s)"
  | .skipped reason => "Skipping undecodable message: " ++ reason
  | .aborted reason => "Aborting session on framing error: " ++ reason
  | .inputClosed => "Input stream closed"
  | .stopped reason => reason
  | .caching length uri => "Caching " ++ Numeral.ofNat length ++ " characters for " ++ uri
  | .nothingToLint uri => "No text stored for " ++ uri ++ ", nothing to lint"
  | .linterFailed linter uri => "Linter " ++ linter ++ " failed for " ++ uri
  | .publishing count uri => "Publishing " ++ Numeral.ofNat count ++ " diagnostics for " ++ uri
  | .emptyChange uri => "Change for " ++ uri ++ " carries no content changes"
  | .noText provider uri => provider ++ ": no text stored for " ++ uri
  | .providerFailed provider uri =>
    "Completion provider " ++ provider ++ " failed for " ++ uri
  | .checking command => "Running " ++ command
  | .completing command uri => "Running " ++ command ++ " for " ++ uri
  | .cannotRun command reason => "Cannot run " ++ command ++ ": " ++ reason
  | .completerFailed code complaint =>
    "rct-complete failed (code " ++ Numeral.ofInt code ++ "): " ++ complaint
  | .completingConstants path => "Completing constants for prefix " ++ path.quoted
  | .unreadableFile path reason => "Skipping unreadable file " ++ path ++ ": " ++ reason
  | .workspaceOpened roots =>
    "Initialized workspace manager for: " ++ Text.joinWith ", " roots
  | .filesFound count => "Found " ++ Numeral.ofNat count ++ " Ruby files"
  | .rejected reason => "Error: " ++ reason

end Event

end RubyLanguageServer
