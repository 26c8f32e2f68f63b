import RubyLanguageServer.Text.Basic
import RubyLanguageServer.Text.Blank
import RubyLanguageServer.Text.Lines
import RubyLanguageServer.Text.Word
import RubyLanguageServer.Text.Decimal
import RubyLanguageServer.Text.Entries
import RubyLanguageServer.Text.Utf8
import RubyLanguageServer.Text.Quoted
import RubyLanguageServer.Text.ControlSequence
import RubyLanguageServer.Number.Numeral
import RubyLanguageServer.Number.Binary64
import RubyLanguageServer.Json.Basic
import RubyLanguageServer.Json.Reader
import RubyLanguageServer.Json.Printer
import RubyLanguageServer.Workspace.Path
import RubyLanguageServer.Schema.Fault
import RubyLanguageServer.Schema.Coercion
import RubyLanguageServer.Schema.Instance
import RubyLanguageServer.Schema.Shape
import RubyLanguageServer.Schema.Catalog
import RubyLanguageServer.Wire.Message
import RubyLanguageServer.Wire.Source
import RubyLanguageServer.Wire.Frame
import RubyLanguageServer.Wire.Payload
import RubyLanguageServer.Analysis.Constant
import RubyLanguageServer.Analysis.Candidate
import RubyLanguageServer.Analysis.Issue
import RubyLanguageServer.Log.Event
import RubyLanguageServer.Document.Store
import RubyLanguageServer.Workspace.Address
import RubyLanguageServer.Workspace.Uri
import RubyLanguageServer.Workspace.RubyFile
import RubyLanguageServer.Machine.Disk
import RubyLanguageServer.Log.File
import RubyLanguageServer.Workspace.Scan
import RubyLanguageServer.Workspace.Basic
import RubyLanguageServer.Failure
import RubyLanguageServer.Analysis.Analyzer
import RubyLanguageServer.Session.Task
import RubyLanguageServer.Session.Registry
import RubyLanguageServer.Session.Basic
import RubyLanguageServer.Session.Dispatch
import RubyLanguageServer.Session.Run
import RubyLanguageServer.Server.Handlers
import RubyLanguageServer.Machine.Program
import RubyLanguageServer.Analysis.ConstantIndex
import RubyLanguageServer.Server.Analyzers
import RubyLanguageServer.Server.Basic
import RubyLanguageServer.CommandLine.Similarity
import RubyLanguageServer.CommandLine.Arguments
import RubyLanguageServer.CommandLine.Usage
import RubyLanguageServer.CommandLine.Plan
import RubyLanguageServer.CommandLine.Serve
import RubyLanguageServer.Main
import RubyLanguageServer.Proofs.JsonReader
import RubyLanguageServer.Proofs.JsonExcess
import RubyLanguageServer.Proofs.Entries
import RubyLanguageServer.Proofs.Validation
import RubyLanguageServer.Proofs.Printing
import RubyLanguageServer.Proofs.History
import RubyLanguageServer.Proofs.Answers
import RubyLanguageServer.Proofs.Headers
import RubyLanguageServer.Proofs.Framing
import RubyLanguageServer.Proofs.Edits
import RubyLanguageServer.Proofs.Replay
import RubyLanguageServer.Proofs.Survival
import RubyLanguageServer.Proofs.JsonStrings
import RubyLanguageServer.Proofs.JsonNumbers
import RubyLanguageServer.Proofs.Rereading
import RubyLanguageServer.Proofs.Encoding
import RubyLanguageServer.Proofs.Output
import RubyLanguageServer.Proofs.Echo
import RubyLanguageServer.Proofs.Outcomes
import RubyLanguageServer.Proofs.Diagnostics
import RubyLanguageServer.Proofs.Replies
import RubyLanguageServer.Proofs.Causality
import RubyLanguageServer.Proofs.Idle
import RubyLanguageServer.Proofs.Paths
import RubyLanguageServer.Proofs.Portable
import RubyLanguageServer.Proofs.Revalidation
import RubyLanguageServer.Proofs.RecordForms
import RubyLanguageServer.Proofs.Skeleton
import RubyLanguageServer.Proofs.FirstLook
import RubyLanguageServer.Proofs.FileUris
import RubyLanguageServer.Proofs.JsonGrammar
import RubyLanguageServer.Proofs.ReadBack
import RubyLanguageServer.Proofs.Scanning
import RubyLanguageServer.Proofs.Completion
import RubyLanguageServer.Proofs.Registration
import RubyLanguageServer.Proofs.Definitions
import RubyLanguageServer.Proofs.LineByLine
import RubyLanguageServer.Proofs.Sites
import RubyLanguageServer.Proofs.LineEnds
import RubyLanguageServer.Proofs.Cursor
import RubyLanguageServer.Proofs.CheckerOutput
import RubyLanguageServer.Proofs.Spellings
import RubyLanguageServer.Proofs.Listing
import RubyLanguageServer.Proofs.RubyFiles
import RubyLanguageServer.Proofs.CompleterOutput
import RubyLanguageServer.Proofs.Snapshots
import RubyLanguageServer.Proofs.Progress
import RubyLanguageServer.Proofs.Parts
