import RubyLanguageServer.Schema.Shape
/-!
# The protocol's records

The shape of every record that the server reads or writes. Field names are written with low lines
inside the server and in mixed case on the wire; the message itself and the settings have one
spelling only.
-/
namespace RubyLanguageServer

namespace Catalog

def required (name wire : Text) (shape : Shape) : Field × Shape := (⟨name, wire, none⟩, shape)

def optional (name wire : Text) (shape : Shape) : Field × Shape :=
  (⟨name, wire, some .none⟩, .optional shape)

/-- A field with a value of its own when it is absent. -/
def defaulted (name wire : Text) (shape : Shape) (value : Instance) : Field × Shape :=
  (⟨name, wire, some value⟩, shape)

/-- How a document is kept in step: not at all, as a whole, by parts. -/
def syncKinds : List Int := [0, 1, 2]

def severities : List Int := [1, 2, 3, 4]

def itemKinds : List Int := [1, 2, 3, 4, 5, 6, 7, 8, 9, 10, 14, 15, 21]

def message : Shape := .record "Message" [
  optional "id" "id" .requestId,
  required "method" "method" .text,
  defaulted "params" "params" .any .none]

/-- The record without fields, which all records of the protocol extend. -/
def base : Shape := .record "LspModel" []

def position : Shape := .record "Position" [
  required "line" "line" .integer,
  required "character" "character" .integer]

def range : Shape := .record "Range" [
  required "start" "start" position,
  required "end" "end" position]

def diagnostic : Shape := .record "Diagnostic" [
  required "range" "range" range,
  required "severity" "severity" (.choice severities),
  required "message" "message" .text,
  optional "source" "source" .text]

def publishDiagnostics : Shape := .record "PublishDiagnosticsParams" [
  required "uri" "uri" .text,
  required "diagnostics" "diagnostics" (.list diagnostic)]

def completionItem : Shape := .record "CompletionItem" [
  required "label" "label" .text,
  optional "kind" "kind" (.choice itemKinds),
  optional "detail" "detail" .text]

def syncOptions : Shape := .record "TextDocumentSyncOptions" [
  defaulted "open_close" "openClose" .flag (.flag true),
  defaulted "change" "change" (.choice syncKinds) (.integer 1)]

def completionOptions : Shape := .record "CompletionOptions" [
  defaulted "resolve_provider" "resolveProvider" .flag (.flag false),
  defaulted "trigger_characters" "triggerCharacters" (.list .text) (.list [])]

def serverCapabilities : Shape := .record "ServerCapabilities" [
  required "text_document_sync" "textDocumentSync" syncOptions,
  required "completion_provider" "completionProvider" completionOptions]

def serverInfo : Shape := .record "ServerInfo" [
  required "name" "name" .text,
  optional "version" "version" .text]

def initializeResult : Shape := .record "InitializeResult" [
  required "capabilities" "capabilities" serverCapabilities,
  optional "server_info" "serverInfo" serverInfo]

def documentIdentifier : Shape := .record "TextDocumentIdentifier" [
  required "uri" "uri" .text]

def versionedIdentifier : Shape := .record "VersionedTextDocumentIdentifier" [
  required "uri" "uri" .text,
  optional "version" "version" .integer]

def documentItem : Shape := .record "TextDocumentItem" [
  required "uri" "uri" .text,
  defaulted "language_id" "languageId" .text (.text "ruby"),
  defaulted "version" "version" .integer (.integer 0),
  required "text" "text" .text]

def contentChange : Shape := .record "TextDocumentContentChangeEvent" [
  required "text" "text" .text]

def didOpen : Shape := .record "DidOpenTextDocumentParams" [
  required "text_document" "textDocument" documentItem]

def didChange : Shape := .record "DidChangeTextDocumentParams" [
  required "text_document" "textDocument" versionedIdentifier,
  required "content_changes" "contentChanges" (.list contentChange)]

def completion : Shape := .record "CompletionParams" [
  required "text_document" "textDocument" documentIdentifier,
  required "position" "position" position]

def settings (current : Text) : Shape := .record "ServerSettings" [
  defaulted "roots" "roots" (.directories current) (.list [.text (Path.absolute current [])]),
  defaulted "ruby_executable" "ruby_executable" .text (.text "ruby"),
  defaulted "rct_complete_command" "rct_complete_command" .text (.text "rct-complete"),
  defaulted "debug" "debug" .flag (.flag false),
  optional "log_file" "log_file" .text]

/-- The records whose fields have a wire spelling of their own. -/
def protocolRecords : List Shape := [
  base, position, range, diagnostic, publishDiagnostics, completionItem, syncOptions,
  completionOptions, serverCapabilities, serverInfo, initializeResult, documentIdentifier,
  versionedIdentifier, documentItem, contentChange, didOpen, didChange, completion]

/-- All records, as they are read in a working directory. -/
def records (current : Text) : List Shape := message :: settings current :: protocolRecords

def find? (current name : Text) : Option Shape := (records current).find? (·.name = name)

end Catalog

end RubyLanguageServer
