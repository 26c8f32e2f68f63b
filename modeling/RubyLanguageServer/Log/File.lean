import RubyLanguageServer.Log.Event
import RubyLanguageServer.Machine.Disk
/-!
# Log files

The log as text, and the file to which it is added. An event is written on a line that begins with
the time. A failure is followed by its trace.
-/
namespace RubyLanguageServer

namespace Event

/-- The line of an event behind the time, as it can be encoded. -/
def record (e : Event) : Text :=
  Utf8.escapeSurrogates
    (e.origin ++ Text.ofString " - " ++ e.level.name ++ Text.ofString " - " ++ e.message)

/-- Whether the trace of a failure is written behind an event. -/
def isTraced : Event → Bool
  | .handlerFailed .. | .linterFailed .. | .providerFailed .. => true
  | _ => false

/-- The line with which a trace begins. The lines below it tell how the program was built. They
define nothing that could be completed, and are left out. -/
def traceHeading : Text := "Traceback (most recent call last):"

def endLine (t : Text) : Text :=
  if t.getLast? = some CodePoint.lineFeed then t else t ++ [CodePoint.lineFeed]

/-- What is written for an event behind the time. -/
def entry (e : Event) : Text :=
  (if e.isTraced then endLine e.record ++ traceHeading else e.record) ++ [CodePoint.lineFeed]

end Event

def Level.select (least : Level) (log : List Event) : List Event :=
  log.filter fun e => least.rank ≤ e.level.rank

/-- An open log file, and the least level that is written to it. -/
structure LogFile where
  place : Place
  least : Level
deriving DecidableEq, Repr

namespace LogFile

/-- The bytes that are written for events at a time. -/
def bytes (f : LogFile) (time : Text) (log : List Event) : Bytes :=
  (f.least.select log).flatMap fun e =>
    (time ++ Text.ofString " - " ++ e.entry).flatMap Utf8.encodeScalar

/-- The disk once events have been logged. A file that has been removed is not made again. -/
def append (f : LogFile) (time : Text) (log : List Event) (d : Disk) : Disk :=
  match f.bytes time log, Disk.entryAt f.place d.root with
  | [], _ => d
  | bytes, some (.file content) =>
    { d with root := Disk.insertBelow (.file (content ++ bytes)) f.place d.root }
  | _, _ => d

end LogFile

end RubyLanguageServer
