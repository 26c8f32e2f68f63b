import RubyLanguageServer.Proofs.Encoding
import RubyLanguageServer.Server.Handlers
/-!
# What the client is told, as JSON

The objects of the messages that the server writes, spelled out, and that they can be written: the
only integers in them that could be too long are an id and the line of an issue.
-/
namespace RubyLanguageServer

/-- An issue as the client is told of it: a warning or an error at the start of its line. -/
def Issue.toJson (source : Text) (issue : Issue) : Json :=
  let start : Json := .object [("line", .int issue.line), ("character", .int 0)]
  .object [
    ("range", .object [("start", start), ("end", start)]),
    ("severity", .int (if issue.isWarning then 2 else 1)),
    ("message", .text issue.message),
    ("source", .text source)]

def Candidate.toJson (c : Candidate) : Json :=
  match c.detail with
  | none => .object [("label", .text c.name), ("kind", .int c.kind.code)]
  | some detail =>
    .object [("label", .text c.name), ("kind", .int c.kind.code), ("detail", .text detail)]

/-- What the server says of itself to a client that connects. -/
def Handlers.greetingObject : Json := .object [
  ("capabilities", .object [
    ("textDocumentSync", .object [("openClose", .bool true), ("change", .int 1)]),
    ("completionProvider", .object [
      ("resolveProvider", .bool true), ("triggerCharacters", .array [.text "."])])]),
  ("serverInfo", .object [("name", .text "rblsp"), ("version", .text "0.1.0")])]

namespace Outgoing

/-- The object of a notification of the issues in a document. -/
def publicationObject (uri source : Text) (issues : List Issue) : Json :=
  .object [("jsonrpc", .text "2.0"), ("method", .text "textDocument/publishDiagnostics"),
    ("params", .object [("uri", .text uri),
      ("diagnostics", .array (issues.map (Issue.toJson source)))])]

/-- The notification of the issues in a document. -/
def publication (uri source : Text) (issues : List Issue) : Outgoing :=
  .notification "textDocument/publishDiagnostics"
    (.record (Handlers.diagnostics uri source issues))

theorem print_wire {m : Outgoing} {content : Text} {v : Json} (h : m.payload.print = .ok content)
    (hv : m.payload.wire? = some v) : v.print = .ok content := by
  obtain ⟨w, hw, hprint⟩ := (Payload.print_eq_ok_iff m.payload).mp h
  rw [hv] at hw
  cases hw
  exact hprint

end Outgoing

namespace Handlers

private theorem itemsToWire_diagnostics (source : Text) (issues : List Issue) :
    Instance.itemsToWire (issues.map (diagnostic source)) = issues.map (Issue.toJson source) := by
  induction issues with
  | nil => rfl
  | cons issue issues ih =>
    rw [List.map_cons, Instance.itemsToWire, ih]
    rfl

theorem toWire_diagnostics (uri source : Text) (issues : List Issue) :
    (diagnostics uri source issues).toWire = .object [("uri", .text uri),
      ("diagnostics", .array (issues.map (Issue.toJson source)))] := by
  rw [← itemsToWire_diagnostics]
  rfl

theorem wire?_publication (uri source : Text) (issues : List Issue) :
    (Outgoing.publication uri source issues).payload.wire? =
      some (Outgoing.publicationObject uri source issues) := by
  simp only [Outgoing.publication, Outgoing.payload, Payload.wire?, Payload.wireMembers?,
    toWire_diagnostics]
  rfl

private theorem brokenKey?_diagnostics (uri source : Text) (issues : List Issue) :
    (diagnostics uri source issues).brokenKey? = none := by
  have hitems : Instance.brokenKeyOfItems? (issues.map (diagnostic source)) = none := by
    induction issues with
    | nil => rfl
    | cons issue issues ih =>
      rw [List.map_cons, Instance.brokenKeyOfItems?, ih]
      rfl
  simp only [diagnostics, Instance.brokenKey?, Instance.brokenKeyOfFields?, hitems]
  rfl

private theorem short_issue (source : Text) {issue : Issue}
    (h : (Numeral.ofNat issue.line.natAbs).length ≤ 4300) : (issue.toJson source).Short := by
  have hstart : (Json.object [("line", .int issue.line), ("character", .int 0)]).Short := by
    refine .object trivial ?_
    simp only [List.forall_mem_cons]
    exact ⟨.int h, .int (by decide), List.forall_mem_nil _⟩
  have hrange : (Json.object [
      ("start", .object [("line", .int issue.line), ("character", .int 0)]),
      ("end", .object [("line", .int issue.line), ("character", .int 0)])]).Short := by
    refine .object trivial ?_
    simp only [List.forall_mem_cons]
    exact ⟨hstart, hstart, List.forall_mem_nil _⟩
  have hseverity : (Json.int (if issue.isWarning then 2 else 1)).Short := by
    split <;> exact .int (by decide)
  refine .object trivial ?_
  simp only [List.forall_mem_cons]
  exact ⟨hrange, hseverity, .text trivial, .text trivial, List.forall_mem_nil _⟩

private theorem short_publication (uri source : Text) {issues : List Issue}
    (h : ∀ issue ∈ issues, (Numeral.ofNat issue.line.natAbs).length ≤ 4300) :
    (Outgoing.publicationObject uri source issues).Short := by
  have hissues : (Json.array (issues.map (Issue.toJson source))).Short := by
    apply Json.Meets.array
    rw [List.forall_mem_map]
    exact fun issue hissue => short_issue source (h issue hissue)
  have hparams : (Json.object [("uri", .text uri),
      ("diagnostics", .array (issues.map (Issue.toJson source)))]).Short := by
    refine .object trivial ?_
    simp only [List.forall_mem_cons]
    exact ⟨.text trivial, hissues, List.forall_mem_nil _⟩
  refine .object trivial ?_
  simp only [List.forall_mem_cons]
  exact ⟨.text trivial, .text trivial, hparams, List.forall_mem_nil _⟩

variable [Stack]

theorem publication_body_ok (uri source : Text) {issues : List Issue}
    (h : ∀ issue ∈ issues, (Numeral.ofNat issue.line.natAbs).length ≤ 4300) :
    ∃ content, (Outgoing.publication uri source issues).body = .ok content := by
  apply Payload.encode_ok_iff.mpr
  refine ⟨.table ?_, _, wire?_publication uri source issues, short_publication uri source h⟩
  have htext (t : Text) : (Payload.json (.text t)).Converts Stack.room :=
    Payload.converts_json Stack.room_pos (Json.fits_of_pos Stack.room_pos fun _ => rfl)
  simp only [List.forall_mem_cons]
  exact ⟨htext _, htext _,
    Payload.converts_record Stack.room_pos (brokenKey?_diagnostics uri source issues),
    List.forall_mem_nil _⟩

theorem writable_greeting : (Payload.record greeting).Writable Stack.room :=
  ⟨Payload.converts_record Stack.room_pos rfl, _, rfl,
    (Json.printable_iff_short greeting.toWire).mp ⟨_, rfl⟩⟩

omit [Stack] in
private theorem toWire_completionItem (c : Candidate) : (completionItem c).toWire = c.toJson := by
  rw [completionItem, Candidate.toJson]
  cases c.detail <;> rfl

omit [Stack] in
theorem wire?_completionItems (candidates : List Candidate) :
    (completionItems candidates).wire? = some (.array (candidates.map Candidate.toJson)) := by
  have hitems : Payload.wireItems? (candidates.map fun c => .record (completionItem c)) =
      some (candidates.map Candidate.toJson) := by
    induction candidates with
    | nil => rfl
    | cons c candidates ih =>
      rw [List.map_cons, Payload.wireItems?, Payload.wire?, ih, toWire_completionItem]
      rfl
  rw [completionItems, Payload.wire?, hitems]
  rfl

omit [Stack] in
private theorem short_candidate (c : Candidate) : c.toJson.Short := by
  have hkind : (Json.int c.kind.code).Short := by
    cases c.kind <;> exact .int (by decide)
  rw [Candidate.toJson]
  split
  all_goals
    refine .object trivial ?_
    simp only [List.forall_mem_cons]
  · exact ⟨.text trivial, hkind, List.forall_mem_nil _⟩
  · exact ⟨.text trivial, hkind, .text trivial, List.forall_mem_nil _⟩

theorem writable_completionItems (candidates : List Candidate) :
    (completionItems candidates).Writable Stack.room := by
  refine ⟨?_, _, wire?_completionItems candidates, ?_⟩
  · obtain ⟨room, hroom⟩ := Nat.exists_eq_add_of_le' Stack.enough
    rw [hroom]
    apply Payload.Converts.list
    rw [List.forall_mem_map]
    intro c _
    apply Payload.Converts.record
    rw [completionItem]
    cases c.detail <;> rfl
  · apply Json.Meets.array
    rw [List.forall_mem_map]
    exact fun c _ => short_candidate c

end Handlers

end RubyLanguageServer
