import RubyLanguageServer.Text.Blank
import RubyLanguageServer.Text.Lines
/-!
# Completion candidates

The method completer prints one candidate on a line: its name and, behind a tab, a description.
-/
namespace RubyLanguageServer

inductive CandidateKind where
  | plainText
  | methodName
  | functionName
  | constructorName
  | fieldName
  | variableName
  | className
  | interfaceName
  | moduleName
  | propertyName
  | keyword
  | snippet
  | constantName
deriving DecidableEq, Repr

namespace CandidateKind

def code : CandidateKind → Int
  | .plainText => 1
  | .methodName => 2
  | .functionName => 3
  | .constructorName => 4
  | .fieldName => 5
  | .variableName => 6
  | .className => 7
  | .interfaceName => 8
  | .moduleName => 9
  | .propertyName => 10
  | .keyword => 14
  | .snippet => 15
  | .constantName => 21

def all : List CandidateKind := [
  .plainText, .methodName, .functionName, .constructorName, .fieldName, .variableName, .className,
  .interfaceName, .moduleName, .propertyName, .keyword, .snippet, .constantName]

def ofCode? (n : Int) : Option CandidateKind := all.find? (·.code = n)

end CandidateKind

structure Candidate where
  name : Text
  detail : Option Text := none
  kind : CandidateKind := .plainText
deriving DecidableEq, Repr

namespace Candidate

/-- The candidate on one line of the completer's output; a blank line has none. -/
def ofLine? (line : Text) : Option Candidate :=
  if line.isBlank then none
  else
    let name : Text := line.takeWhile (· ≠ CodePoint.ofChar '\t')
    let description : Text := (line.dropWhile (· ≠ CodePoint.ofChar '\t')).drop 1
    let detail :=
      match description.trim with
      | [] => none
      | t => some t
    some { name := name.trim, detail, kind := .methodName }

def ofOutput (output : Text) : List Candidate := output.lines.filterMap ofLine?

end Candidate

end RubyLanguageServer
