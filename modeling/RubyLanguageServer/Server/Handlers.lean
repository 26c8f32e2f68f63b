import RubyLanguageServer.Session.Registry
/-!
# The handlers of the server

The methods that the server answers. An opened or changed document is stored, checked by the linter
and its issues published, the latest list replacing all before it. A completion request asks every
provider in turn. A linter or provider that fails contributes nothing.
-/
namespace RubyLanguageServer

namespace Handlers

variable {σ : Type}

/-- What the server says of itself to a client that connects. -/
def greeting : Instance := .record [
  ("capabilities", .record [
    ("textDocumentSync", .record [("openClose", .flag true), ("change", .integer 1)]),
    ("completionProvider", .record [
      ("resolveProvider", .flag true), ("triggerCharacters", .list [.text "."])])]),
  ("serverInfo", .record [("name", .text "rblsp"), ("version", .text "0.1.0")])]

def lineStart (line : Int) : Instance :=
  .record [("line", .integer line), ("character", .integer 0)]

def diagnostic (source : Text) (issue : Issue) : Instance := .record [
  ("range", .record [("start", lineStart issue.line), ("end", lineStart issue.line)]),
  ("severity", .integer (if issue.isWarning then 2 else 1)),
  ("message", .text issue.message),
  ("source", .text source)]

/-- The issues of a document as the client is told of them. -/
def diagnostics (uri source : Text) (issues : List Issue) : Instance := .record [
  ("uri", .text uri),
  ("diagnostics", .list (issues.map (diagnostic source)))]

def completionItem (c : Candidate) : Instance := .record [
  ("label", .text c.name),
  ("kind", .integer c.kind.code),
  ("detail", (c.detail.map Instance.text).getD .none)]

/-- The issues in the stored text of a document. There are none if there is no text or the linter
fails. -/
def lint (linter : Linter σ) (uri : Text) : Task σ (List Issue) := do
  match ← Task.attempt fun store => do linter.analyze (← Probe.text store uri) with
  | .ok issues => return issues
  | .error (.noDocument _) =>
    Task.report (.nothingToLint uri)
    return []
  | .error _ =>
    Task.report (.linterFailed linter.name uri)
    return []

/-- Tells the client of the issues in a document. -/
def publish [Stack] (linter : Linter σ) (uri : Text) : Task σ Unit := do
  let issues ← lint linter uri
  Task.report (.publishing issues.length uri)
  Task.notify "textDocument/publishDiagnostics" (.record (diagnostics uri linter.name issues))

/-- The candidates of one provider; none if it fails. -/
def ask (provider : Provider σ) (query : Query) : Task σ (List Candidate) := do
  match ← Task.attempt (provider.complete query) with
  | .ok candidates => return candidates
  | .error (.noDocument _) =>
    Task.report (.noText provider.name query.uri)
    return []
  | .error _ =>
    Task.report (.providerFailed provider.name query.uri)
    return []

/-- The candidates of all providers, one after the other. -/
def collect : List (Provider σ) → Query → Task σ (List Candidate)
  | [], _ => return []
  | provider :: providers, query => do
    let first ← ask provider query
    let others ← collect providers query
    return first ++ others

/-- The candidates as the result of a completion request. -/
def completionItems (candidates : List Candidate) : Payload :=
  .list (candidates.map fun c => .record (completionItem c))

def didOpen [Stack] (linter : Linter σ) (call : Call) : Task σ Payload := do
  let document := (← Task.validate Catalog.didOpen call.message.params).field "textDocument"
  let uri := (document.field "uri").asText
  Task.put uri (document.field "text").asText
  publish linter uri
  return .null

/-- Stores the texts of a change one after the other. -/
def putAll (uri : Text) : List Instance → Task σ Unit
  | [] => return ()
  | change :: changes => do
    Task.put uri (change.field "text").asText
    putAll uri changes

def didChange [Stack] (linter : Linter σ) (call : Call) : Task σ Payload := do
  let params ← Task.validate Catalog.didChange call.message.params
  let uri := ((params.field "textDocument").field "uri").asText
  match (params.field "contentChanges").asList with
  | [] =>
    Task.report (.emptyChange uri)
    return .null
  | changes =>
    putAll uri changes
    publish linter uri
    return .null

def completion (providers : List (Provider σ)) (call : Call) : Task σ Payload := do
  let params ← Task.validate Catalog.completion call.message.params
  let position := params.field "position"
  let candidates ← collect providers {
    uri := ((params.field "textDocument").field "uri").asText
    line := (position.field "line").asInteger
    character := (position.field "character").asInteger }
  return completionItems candidates

/-- The handlers under their methods, in the order in which they are registered. -/
def table [Stack] (linter : Linter σ) (providers : List (Provider σ)) : List (Text × Handler σ) := [
  ("initialize", { run := fun _ => return .record greeting }),
  ("shutdown", { run := fun _ => throw (.shutdown 0 "shutdown requested by client") }),
  ("exit", { run := fun _ => throw (.shutdown 0 "exit notification received") }),
  ("textDocument/didOpen",
    { needs := ["request", "notifier", "document_store"], run := didOpen linter }),
  ("textDocument/didChange",
    { needs := ["request", "notifier", "document_store"], run := didChange linter }),
  ("textDocument/completion",
    { needs := ["request", "document_store"], run := completion providers }),
  ("completionItem/resolve",
    { needs := ["request"], run := fun call => return .json call.message.params })]

def registry [Stack] (linter : Linter σ) (providers : List (Provider σ)) : Registry σ :=
  { entries := (table linter providers).map fun (method, handler) => (.named method, handler)
    isSealed := true }

end Handlers

end RubyLanguageServer
