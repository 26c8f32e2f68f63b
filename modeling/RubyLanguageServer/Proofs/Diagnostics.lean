import RubyLanguageServer.Proofs.Echo
import RubyLanguageServer.Proofs.Outcomes
import RubyLanguageServer.Proofs.Replay
/-!
# The issues that are published

A run publishes issues once for each edit that it reads, in the order of the edits, and for nothing
else. With a linter that goes by the text alone, what the client was last told of a document is
therefore always what the linter finds in its present text.
-/
namespace RubyLanguageServer

namespace Outgoing

def method? (m : Outgoing) : Option Text :=
  match m.member? "method" with
  | some (.json (.text method)) => some method
  | _ => none

def uri? (m : Outgoing) : Option Text :=
  match (m.member? "params").bind Payload.wire? with
  | some (.object params) =>
    match Entries.find? "uri" params with
    | some (.text uri) => some uri
    | _ => none
  | _ => none

/-- Whether the client is told of the issues in a document. -/
def isPublication (m : Outgoing) : Bool := m.method? = some "textDocument/publishDiagnostics"

private theorem isPublication_publication (uri source : Text) (issues : List Issue) :
    (publication uri source issues).isPublication = true := rfl

private theorem uri?_publication (uri source : Text) (issues : List Issue) :
    (publication uri source issues).uri? = some uri := by
  have hparams : ((publication uri source issues).member? "params").bind Payload.wire? =
      some (.object [("uri", .text uri),
        ("diagnostics", .array (issues.map (Issue.toJson source)))]) :=
    congrArg some (Handlers.toWire_diagnostics uri source issues)
  rw [uri?, hparams]
  rfl

private theorem isPublication_answer [Stack] {id : RequestId} {outcome : Except Failure Payload}
    {m : Outgoing} (h : answer? id outcome = some m) : m.isPublication = false := by
  cases outcome with
  | ok result =>
    rw [answer?] at h
    split at h <;> cases h <;> rfl
  | error failure => cases failure <;> cases h <;> rfl

/-- The messages that tell of the issues in documents. -/
def publications (sent : List Sent) : List Outgoing :=
  (sent.filter (·.message.isPublication)).map Sent.message

private theorem publications_append (sent later : List Sent) :
    publications (sent ++ later) = publications sent ++ publications later := by
  rw [publications, List.filter_append, List.map_append]
  rfl

private theorem publications_eq_filter (sent : List Sent) :
    publications sent = (sent.map Sent.message).filter isPublication := by
  rw [publications, List.filter_map]
  rfl

private theorem print_of_message {frame : Sent} {uri source : Text} {issues : List Issue}
    (h : frame.message = publication uri source issues) :
    (publicationObject uri source issues).print = .ok frame.content := by
  apply print_wire (m := publication uri source issues)
  · rw [← h]
    exact frame.printed
  · exact Handlers.wire?_publication uri source issues

/-- If there is one publication for each edit, the last for a document is that of its last edit. -/
theorem last_publication {announce : Text × Text → Outgoing}
    (huri : ∀ edit, (announce edit).uri? = some edit.1) {sent : List Sent}
    {edits : List (Text × Text)} (hsent : publications sent = edits.map announce) {uri : Text}
    {edit : Text × Text} (hlast : (edits.filter (·.1 = uri)).getLast? = some edit) :
    ∃ frame, (sent.filter fun frame =>
        frame.message.isPublication ∧ frame.message.uri? = some uri).getLast? = some frame ∧
      frame.message = announce edit := by
  have hofUri : (sent.filter fun frame =>
        frame.message.isPublication ∧ frame.message.uri? = some uri).map Sent.message =
      (edits.filter (·.1 = uri)).map announce := by
    calc
      _ = (publications sent).filter (·.uri? = some uri) := by
        rw [publications, List.filter_map, List.filter_filter]
        simp [Bool.and_comm]
      _ = (edits.map announce).filter (·.uri? = some uri) := by rw [hsent]
      _ = _ := by
        rw [List.filter_map]
        simp [Function.comp_def, huri]
  have hframe := congrArg List.getLast? hofUri
  rw [List.getLast?_map, List.getLast?_map, hlast, Option.map_some] at hframe
  exact Option.map_eq_some_iff.mp hframe

end Outgoing

private theorem Exchange.publications_answer [Stack] {x : Exchange} {frames : List Sent}
    (h : frames.map Sent.message = x.answer?.toList) : Outgoing.publications frames = [] := by
  rw [Outgoing.publications_eq_filter, h, List.filter_eq_nil_iff]
  intro m hm
  obtain ⟨id, -, hanswer⟩ := Option.bind_eq_some_iff.mp (Option.mem_toList.mp hm)
  simp [Outgoing.isPublication_answer hanswer]

namespace DocumentStore

private theorem get?_put_of_ne {uri other : Text} (h : other ≠ uri) (store : DocumentStore)
    (text : Text) :
    (store.put other text).get? uri = store.get? uri :=
  Entries.find?_insert_of_ne h text store.entries

theorem get?_replay (roots : List Text) (edits : List (Text × Text)) (uri : Text) :
    (replay { roots } edits).get? uri =
      (edits.filter (·.1 = uri)).getLast?.map Prod.snd := by
  induction edits using List.reverseRecOn with
  | nil => rfl
  | append_singleton edits edit ih =>
    obtain ⟨other, text⟩ := edit
    rw [replay_append, List.filter_append]
    show (put _ other text).get? uri = _
    by_cases h : other = uri
    · subst h
      have hfilter : [(other, text)].filter (·.1 = other) = [(other, text)] :=
        List.filter_cons_of_pos (decide_eq_true rfl)
      rw [get?_put_self, hfilter, List.getLast?_concat]
      rfl
    · rw [get?_put_of_ne h, ih, List.filter_cons_of_neg (by simpa using h), List.filter_nil,
        List.append_nil]

end DocumentStore

namespace Session

open Outgoing

variable {σ : Type} {linter : Linter σ} {providers : List (Provider σ)}

/-- From one session to the other the client is told of the issues in the edited documents, in the
order of the edits. -/
def Publishes (announce : Text × Text → Outgoing) (readings : List Reading) (s s' : Session σ) :
    Prop :=
  ∃ sent, s'.written = s.written ++ sent ∧
    publications sent = (readings.filterMap Reading.edit?).map announce

private theorem Publishes.append {announce : Text × Text → Outgoing} {xs ys : List Reading}
    {s s' s'' : Session σ} (h : Publishes announce xs s s') (h' : Publishes announce ys s' s'') :
    Publishes announce (xs ++ ys) s s'' := by
  obtain ⟨sent, hwritten, hsent⟩ := h
  obtain ⟨later, hwritten', hlater⟩ := h'
  refine ⟨sent ++ later, ?_, ?_⟩
  · rw [hwritten', hwritten, List.append_assoc]
  · rw [publications_append, hsent, hlater, List.filterMap_append, List.map_append]

section

variable [Stack]

/-- A reading publishes issues once if it is an edit, else not at all. -/
theorem step_publishes (hlinter : linter.Bounded) {reading : Reading}
    (hread : ∀ m, reading = .message m → ∃ content, Message.decode content = .ok m)
    (s : Session σ) :
    Publishes (fun edit => publication edit.1 linter.name (linter.issues edit.2 s.world)) [reading]
      s (step (Handlers.registry linter providers) reading s).2 := by
  cases reading with
  | closed => exact ⟨[], (List.append_nil _).symm, rfl⟩
  | broken => exact ⟨[], (List.append_nil _).symm, rfl⟩
  | excess => exact ⟨[], (List.append_nil _).symm, rfl⟩
  | undecodable => exact ⟨[], (List.append_nil _).symm, rfl⟩
  | message m =>
    have hedits : [Reading.message m].filterMap Reading.edit? = m.edit?.toList := by
      rw [edits_cons, List.filterMap_nil, List.append_nil]
      rfl
    rw [Publishes, hedits]
    cases hfind : (Handlers.registry linter providers).find m.method with
    | none =>
      rw [step_of_find_none hfind, Handlers.edit?_of_find_none hfind]
      exact ⟨[], (List.append_nil _).symm, rfl⟩
    | some h =>
      obtain ⟨content, hdecode⟩ := hread m rfl
      obtain ⟨-, ⟨frames, hwritten, hframes⟩, -⟩ :=
        step_of_find hfind (fun _ => Message.printable_id hdecode) s
      obtain ⟨outcome, ⟨-, notes, hnotes, htold⟩, -⟩ :=
        Handlers.fulfils_of_find hlinter hfind (Message.canonical_of_decode hdecode).2.1
          (given collaborators h) s.scene
      change (invoke h m s.scene).2.frames = notes at hnotes
      refine ⟨_, hwritten, ?_⟩
      rw [publications_append, Exchange.publications_answer hframes, List.append_nil, hnotes,
        publications_eq_filter, htold, Message.publication?]
      cases m.edit? with
      | none => rfl
      | some edit => exact List.filter_cons_of_pos (isPublication_publication _ _ _)

/-- With a linter that goes by the text alone, each edit that is processed is announced once. -/
theorem history_publishes {lint : Text → Except Failure (List Issue)}
    (hlinter : ∀ text bench, ((linter.analyze text).run.run bench).1 = lint text)
    (hlines : ∀ text issues, lint text = .ok issues →
      ∀ issue ∈ issues, (Numeral.ofNat issue.line.natAbs).length ≤ 4300)
    (source : Source) {n : Nat} {reading : Reading} {s s' : Session σ}
    (h : (history (Handlers.registry linter providers) (Frame.readings source) s)[n]? =
      some (reading, s')) :
    Publishes (fun edit => publication edit.1 linter.name ((lint edit.2).toOption.getD []))
      ((Frame.readings source).take (n + 1)) s s' := by
  have hissues : ∀ text world, linter.issues text world = (lint text).toOption.getD [] :=
    fun text world => congrArg (·.toOption.getD []) (hlinter text _)
  have hbounded : linter.Bounded := by
    intro text bench issues hfound
    exact hlines text issues ((hlinter text bench).symm.trans hfound)
  apply rel_of_history Publishes.append ?_ h
  intro reading hmem s
  have hread : ∀ m, reading = .message m → ∃ content, Message.decode content = .ok m := by
    rintro m rfl
    exact Frame.decode_of_mem_readings hmem
  -- What a step announces depends on the world it finds; only here does that become one function.
  simpa only [hissues] using step_publishes hbounded hread s

/-- Issues are published once for each edit that is processed, in order, and what was last published
for a document is what the linter finds in its present text. -/
theorem publications_follow_edits (linter : Linter σ) (providers : List (Provider σ))
    (lint : Text → Except Failure (List Issue))
    (hlinter : ∀ text bench, ((linter.analyze text).run.run bench).1 = lint text)
    (hlines : ∀ text issues, lint text = .ok issues →
      ∀ issue ∈ issues, (Numeral.ofNat issue.line.natAbs).length ≤ 4300)
    (source : Source) (roots : List Text) (s : Session σ) :
    let r := Handlers.registry linter providers
    let s₀ : Session σ := { s with store := { roots } }
    let readings := Frame.readings source
    (∀ n reading s', (history r readings s₀.start)[n]? = some (reading, s') →
      ∃ sent, s'.written = s.written ++ sent ∧
        List.Forall₂
          (fun edit frame =>
            (publicationObject edit.1 linter.name ((lint edit.2).toOption.getD [])).print =
              .ok frame.content)
          ((readings.take (n + 1)).filterMap Reading.edit?)
          (sent.filter (·.message.isPublication)) ∧
        ∀ uri text, s'.store.get? uri = some text →
          ∃ frame, (sent.filter fun frame =>
              frame.message.isPublication ∧ frame.message.uri? = some uri).getLast? = some frame ∧
            (publicationObject uri linter.name ((lint text).toOption.getD [])).print =
              .ok frame.content) ∧
    (history r readings s₀.start).getLast?.map Prod.snd = some (run r source s₀).2.2 := by
  intro r s₀ readings
  refine ⟨?_, ?_⟩
  · intro n reading s' h
    obtain ⟨sent, hwritten, hsent⟩ := history_publishes hlinter hlines source h
    refine ⟨sent, hwritten, ?_, ?_⟩
    · have hall := hsent.symm
      rw [publications, ← List.forall₂_eq_eq_eq, List.forall₂_map_left_iff,
        List.forall₂_map_right_iff] at hall
      exact hall.imp fun edit frame heq => print_of_message heq.symm
    · intro uri text hget
      rw [history_store (answerable_readings source) s₀.start h] at hget
      obtain ⟨⟨uri', text'⟩, hlast, rfl⟩ :=
        Option.map_eq_some_iff.mp ((DocumentStore.get?_replay roots _ uri).symm.trans hget)
      have huri : uri' = uri :=
        of_decide_eq_true (List.mem_filter.mp (List.mem_of_getLast? hlast)).2
      subst huri
      obtain ⟨frame, hframe, hmessage⟩ :=
        last_publication (fun edit => uri?_publication edit.1 _ _) hsent hlast
      exact ⟨frame, hframe, print_of_message hmessage⟩
  · rw [getLast?_history r (Frame.readings_ne_nil source), loop_eq_process]
    rfl

end

theorem publications_follow_edits_opening :
    let _ : Stack := .withSpare 0
    let issue : Issue := { message := "unused", line := 2, isWarning := true }
    let linter : Linter Unit := { name := "ruby", analyze := fun _ => return [issue] }
    let s : Session Unit := { world := () }
    let r := Handlers.registry linter []
    ∃ s' frame, (history r (Frame.readings ⟨opening.bytes, [5]⟩) s.start)[0]? =
        some (Frame.reading opening.body, s') ∧
      s'.written.filter (·.message.isPublication) = [frame] ∧
      (publicationObject "u" "ruby" [issue]).print = .ok frame.content := by
  intro _ issue linter s r
  obtain ⟨rest, hreadings⟩ := readings_opening [5]
  have hfirst : (history r (Frame.readings ⟨opening.bytes, [5]⟩) s.start)[0]? =
      some (Frame.reading opening.body, (step r (Frame.reading opening.body) s.start).2) := by
    rw [hreadings, history_cons]
    rfl
  have hlines : ∀ (_ : Text) (issues : List Issue),
      (.ok [issue] : Except Failure (List Issue)) = .ok issues →
      ∀ issue ∈ issues, (Numeral.ofNat issue.line.natAbs).length ≤ 4300 := by
    rintro _ issues ⟨⟩ issue hissue
    rw [List.mem_singleton.mp hissue]
    decide
  obtain ⟨sent, hwritten, hall, -⟩ :=
    (publications_follow_edits linter [] (fun _ => .ok [issue]) (fun _ _ => rfl) hlines
      ⟨opening.bytes, [5]⟩ [] s).1 0 _ _ hfirst
  rw [hreadings, List.take_succ_cons, List.take_zero, edits_cons, edit?_opening] at hall
  obtain ⟨frame, frames, hprint, hnil, hframes⟩ := List.forall₂_cons_left_iff.mp hall
  cases hnil
  refine ⟨_, frame, hfirst, ?_, hprint⟩
  rw [hwritten]
  exact hframes

end Session

end RubyLanguageServer
