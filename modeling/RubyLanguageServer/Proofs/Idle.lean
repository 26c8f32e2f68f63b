import RubyLanguageServer.Proofs.Causality
import RubyLanguageServer.Proofs.Outcomes
/-!
# Messages that change nothing

Frames that are no message, messages that nobody handles, and notifications that come to nothing
leave a trace in the log only. The log is written and never read, so a session with such frames put
in anywhere writes the same bytes and ends with the same documents and status.
-/
namespace RubyLanguageServer

/-- The second list is the first with more items put in, all of one kind. -/
inductive Padded {α : Type} (kind : α → Prop) : List α → List α → Prop
  | nil : Padded kind [] []
  | keep {a : α} {as bs : List α} : Padded kind as bs → Padded kind (a :: as) (a :: bs)
  | insert {b : α} {as bs : List α} : kind b → Padded kind as bs → Padded kind as (b :: bs)

namespace Frame

theorem read_congr {a b : Source} (h : a.bytes = b.bytes) :
    (read a).1 = (read b).1 ∧ (read a).2.bytes = (read b).2.bytes := by
  rw [read, read, ← h]
  rcases headers [] a.bytes with ⟨_ | _ | hs, rest⟩
  · exact ⟨rfl, rfl⟩
  · exact ⟨rfl, rfl⟩
  · dsimp only
    cases contentLength hs with
    | bad e => exact ⟨rfl, rfl⟩
    | excess e => exact ⟨rfl, rfl⟩
    | ok n =>
      have ha := Source.readExact_bytes n { a with bytes := rest }
      have hb := Source.readExact_bytes n { b with bytes := rest }
      dsimp only
      rw [ha.1, hb.1]
      split <;> simp [ha.2, hb.2]

end Frame

namespace Session

variable {σ : Type} {r : Registry σ}

def logged (old : List Event) (s : Session σ) : Session σ := { s with journal := s.journal ++ old }

def unlogged (s : Session σ) : Session σ := { s with journal := [] }

private theorem logged_unlogged (s : Session σ) : s.unlogged.logged s.journal = s := rfl

private theorem unlogged_logged (old : List Event) (s : Session σ) :
    (s.logged old).unlogged = s.unlogged := rfl

section Over

variable (old : List Event) (s : Session σ)

theorem report_logged (e : Event) : (s.logged old).report e = (s.report e).logged old := rfl

variable [Stack]

private theorem send_logged (m : Outgoing) : (s.logged old).send m = (s.send m).map (logged old) :=
    by
  rw [send, send]
  cases m.sent <;> rfl

private theorem perform_logged (e : Effect) : (s.logged old).perform e = (s.perform e).logged old :=
    by
  cases e with
  | report e => rfl
  | notify method params =>
    rw [perform, perform, send_logged]
    cases s.send (.notification method params) <;> rfl

private theorem foldl_perform_logged (effects : List Effect) :
    effects.foldl perform (s.logged old) = (effects.foldl perform s).logged old := by
  induction effects generalizing s with
  | nil => rfl
  | cons e effects ih => rw [List.foldl_cons, List.foldl_cons, perform_logged, ih]

private theorem runTask_logged {α : Type} (t : Task σ α) :
    (s.logged old).runTask t = ((s.runTask t).1, (s.runTask t).2.logged old) := by
  have heffects := foldl_perform_logged old
    { s with
      store := (t.run.run s.scene).2.store
      world := (t.run.run s.scene).2.world }
    (t.run.run s.scene).2.effects
  exact congrArg (Prod.mk _) heffects

private theorem respond_logged (m : Message) (result : Payload) :
    (s.logged old).respond m result = (s.respond m result).map (logged old) := by
  rw [respond, respond]
  cases m.id with
  | none => rfl
  | some id => exact send_logged old s _

private theorem fail_logged (m : Message) (failure : Failure) :
    (s.logged old).fail m failure = ((s.fail m failure).1, (s.fail m failure).2.logged old) := by
  rw [fail, fail]
  cases m.id with
  | none => rfl
  | some id =>
    simp only [report_logged, send_logged]
    cases (s.report (.handlerFailed m.method failure.message)).send
      (.error id.toJson failure.code failure.message) <;> rfl

private theorem conclude_logged (m : Message) (outcome : Except Failure Payload) :
    (s.logged old).conclude m outcome =
      ((s.conclude m outcome).1, (s.conclude m outcome).2.logged old) := by
  rw [conclude.eq_def, conclude.eq_def]
  cases outcome with
  | ok result =>
    simp only [respond_logged]
    cases s.respond m result with
    | ok s' => rfl
    | error e =>
      cases e with
      | tooDeep => rfl
      | _ => exact fail_logged old s m _
  | error failure =>
    cases failure with
    | shutdown code reason =>
      simp only [respond_logged]
      cases s.respond m .null <;> rfl
    | _ => exact fail_logged old s m _

private theorem dispatch_logged (available : List Collaborator) (m : Message) :
    (s.logged old).dispatch r available m =
      ((s.dispatch r available m).1, (s.dispatch r available m).2.logged old) := by
  rw [dispatch, dispatch]
  cases r.find m.method with
  | none => rfl
  | some h =>
    simp only [report_logged, runTask_logged]
    exact conclude_logged old _ m _

/-- What a step does does not depend on what has been logged before. -/
theorem step_logged (reading : Reading) :
    step r reading (s.logged old) = ((step r reading s).1, (step r reading s).2.logged old) := by
  cases reading with
  | closed => rfl
  | broken => rfl
  | excess => rfl
  | undecodable => rfl
  | message m =>
    simp only [step, report_logged, dispatch_logged]
    rcases (s.report (.received m.method m.id)).dispatch r collaborators m with
      ⟨failure | handled, s'⟩
    · cases failure <;> rfl
    · rfl

end Over

private theorem unlogged_eq {s t : Session σ} (hscene : s.scene = t.scene)
    (hwritten : s.written = t.written) : s.unlogged = t.unlogged := by
  have houtbox : s.outbox = t.outbox := List.reverse_inj.mp hwritten
  have hstore : s.store = t.store := congrArg Scene.store hscene
  have hworld : s.world = t.world := congrArg Scene.world hscene
  simp [unlogged, houtbox, hstore, hworld]

section

variable [Stack]

private theorem step_alike {s t : Session σ} (h : s.unlogged = t.unlogged) (reading : Reading) :
    ∃ t', step r reading t = ((step r reading s).1, t') ∧
      (step r reading s).2.unlogged = t'.unlogged := by
  have hs := step_logged (r := r) s.journal s.unlogged reading
  have ht := step_logged (r := r) t.journal t.unlogged reading
  rw [logged_unlogged] at hs ht
  refine ⟨(step r reading t.unlogged).2.logged t.journal, ?_, ?_⟩
  · rw [ht, hs, h]
  · rw [hs, unlogged_logged, unlogged_logged, h]

private theorem loop_alike {a b : Source} (hbytes : a.bytes = b.bytes) {s t : Session σ}
    (h : s.unlogged = t.unlogged) :
    (loop r a s).1 = (loop r b t).1 ∧
      (loop r a s).2.2.unlogged = (loop r b t).2.2.unlogged := by
  fun_induction loop r a s generalizing b t with
  | case1 a s ending s' hstep =>
    have hread := Frame.read_congr hbytes
    obtain ⟨t', ht, hunlogged⟩ := step_alike (r := r) h (Frame.read a).1
    rw [hstep] at ht hunlogged
    rw [loop_of_step hread.1.symm, ht]
    exact ⟨rfl, hunlogged⟩
  | case2 a s s' hstep ih =>
    have hread := Frame.read_congr hbytes
    obtain ⟨t', ht, hunlogged⟩ := step_alike (r := r) h (Frame.read a).1
    rw [hstep] at ht hunlogged
    rw [loop_of_step hread.1.symm, ht]
    exact ih hread.2 hunlogged

theorem step_quiet {m : Message} {h : Handler σ} (hfind : r.find m.method = some h)
    (hid : m.id = none) {s : Session σ} {outcome : Except Failure Payload} {log : List Event}
    (hrun : invoke h m s.scene = (outcome, s.scene.reporting log s.world))
    (hgoes : ∀ code reason, outcome ≠ .error (.shutdown code reason)) :
    ∃ s', step r (.message m) s = (none, s') ∧ s'.unlogged = s.unlogged := by
  obtain ⟨hscene, ⟨frames, hwritten, hframes⟩, hended⟩ :=
    step_of_find hfind (by simp [hid]) s
  rw [hrun] at hscene hwritten hframes hended
  have hnone : frames = [] := by
    simpa [Exchange.answer?, hid] using hframes
  have hquiet : (s.scene.reporting log s.world).frames = [] := s.scene.frames_reporting log s.world
  rw [hquiet, hnone, List.append_nil, List.append_nil] at hwritten
  have hroom : ¬Exchange.Overruns ⟨m, outcome⟩ := by
    rintro ⟨hrequest, _⟩
    simp [Message.isRequest, hid] at hrequest
  rw [Exchange.ending?_eq_none hroom hgoes] at hended
  exact ⟨_, Prod.ext hended rfl, unlogged_eq hscene hwritten⟩

end

end Session

/-- What a session does not act on: content that is no message, a message without a handler, an edit
that is not well-formed or without a change, and a question without an id to answer to. -/
inductive Reading.Idle {σ : Type} (r : Registry σ) : Reading → Prop
  | undecodable {content : Bytes} {e : Message.DecodeError} : Idle r (.undecodable content e)
  | unhandled {m : Message} : r.find m.method = none → Idle r (.message m)
  | invalid {m : Message} {failure : Schema.Failure} : m.id = none →
      m.method = "textDocument/didOpen" ∨ m.method = "textDocument/didChange" →
      m.Rejected failure → Idle r (.message m)
  | unchanged {m : Message} {v : Instance} : m.id = none → m.method = "textDocument/didChange" →
      Catalog.didChange.check m.params = .ok v → v.field "contentChanges" = .list [] →
      Idle r (.message m)
  | unasked {m : Message} : m.id = none →
      m.method = "initialize" ∨ m.method = "completionItem/resolve" → Idle r (.message m)

namespace Session

variable {σ : Type} {linter : Linter σ} {providers : List (Provider σ)}

private theorem reporting_nil (scene : Scene σ) : scene.reporting [] scene.world = scene := by
  simp [Scene.reporting]

private theorem run_pure (result : Payload) (scene : Scene σ) :
    (pure result : Task σ Payload).run.run scene =
      (.ok result, scene.reporting [] scene.world) := by
  rw [reporting_nil]
  rfl

private theorem run_validate_error {α : Type} {shape : Shape} {params : Json}
    {failure : Schema.Failure}
    (h : shape.check params = .error failure) (k : Instance → Task σ α) (scene : Scene σ) :
    (do k (← Task.validate shape params)).run.run scene =
      (.error (.invalid failure), scene.reporting [] scene.world) := by
  rw [reporting_nil, Task.run_bind, Task.validate, h]
  rfl

section

variable [Stack]

private theorem run_didChange_empty {m : Message} {v : Instance}
    (hv : Catalog.didChange.check m.params = .ok v)
    (hempty : v.field "contentChanges" = .list []) (given : List Collaborator) (scene : Scene σ) :
    ∃ log, (Handlers.didChange linter ⟨m, given⟩).run.run scene =
      (.ok .null, scene.reporting log scene.world) := by
  refine ⟨[.emptyChange ((v.field "textDocument").field "uri").asText], ?_⟩
  have hvalidate : (Task.validate Catalog.didChange m.params : Task σ Instance) = pure v := by
    simp only [Task.validate, hv]
  rw [Handlers.didChange, hvalidate, pure_bind]
  simp only [hempty, Instance.asList]
  rfl

private theorem step_idle {reading : Reading}
    (h : reading.Idle (Handlers.registry linter providers)) (s : Session σ) :
    ∃ s', step (Handlers.registry linter providers) reading s = (none, s') ∧
      s'.unlogged = s.unlogged := by
  cases h with
  | undecodable => exact ⟨_, rfl, rfl⟩
  | unhandled hfind => exact ⟨_, step_of_find_none hfind s, rfl⟩
  | @invalid m failure hid hmethod hrejected =>
    obtain ⟨shape, hshape, hfailure⟩ := hrejected
    rcases hmethod with hm | hm
    · have hfind : (Handlers.registry linter providers).find m.method =
          some ⟨["request", "notifier", "document_store"], Handlers.didOpen linter⟩ := by
        rw [hm]
        rfl
      rw [hm] at hshape
      cases hshape
      exact step_quiet hfind hid (run_validate_error hfailure _ s.scene) nofun
    · have hfind : (Handlers.registry linter providers).find m.method =
          some ⟨["request", "notifier", "document_store"], Handlers.didChange linter⟩ := by
        rw [hm]
        rfl
      rw [hm] at hshape
      cases hshape
      exact step_quiet hfind hid (run_validate_error hfailure _ s.scene) nofun
  | @unchanged m v hid hm hv hempty =>
    have hfind : (Handlers.registry linter providers).find m.method =
        some ⟨["request", "notifier", "document_store"], Handlers.didChange linter⟩ := by
      rw [hm]
      rfl
    obtain ⟨log, hrun⟩ := run_didChange_empty hv hempty _ s.scene
    exact step_quiet hfind hid hrun nofun
  | @unasked m hid hmethod =>
    rcases hmethod with hm | hm
    · have hfind : (Handlers.registry linter providers).find m.method =
          some ⟨[], fun _ => return .record Handlers.greeting⟩ := by
        rw [hm]
        rfl
      exact step_quiet hfind hid (run_pure _ s.scene) nofun
    · have hfind : (Handlers.registry linter providers).find m.method =
          some ⟨["request"], fun call => return .json call.message.params⟩ := by
        rw [hm]
        rfl
      exact step_quiet hfind hid (run_pure _ s.scene) nofun

/-- Over one more frame on both sides, or over an idle one on the longer side only. -/
theorem loop_padded {frames padded : List Frame.Block}
    (h : Padded (fun f => (Frame.reading f.body).Idle (Handlers.registry linter providers))
      frames padded)
    {tail : Bytes} {a b : Source} (ha : a.bytes = frames.flatMap Frame.Block.bytes ++ tail)
    (hb : b.bytes = padded.flatMap Frame.Block.bytes ++ tail) {s t : Session σ}
    (hst : s.unlogged = t.unlogged) :
    (loop (Handlers.registry linter providers) a s).1 =
        (loop (Handlers.registry linter providers) b t).1 ∧
      (loop (Handlers.registry linter providers) a s).2.2.unlogged =
        (loop (Handlers.registry linter providers) b t).2.2.unlogged := by
  induction h generalizing a b s t with
  | nil => exact loop_alike (ha.trans hb.symm) hst
  | @keep f frames padded _ ih =>
    rw [List.flatMap_cons, List.append_assoc] at ha hb
    have hreada := f.read_bytes ha
    have hreadb := f.read_bytes hb
    obtain ⟨t', ht, hunlogged⟩ := step_alike hst (Frame.reading f.body)
    rw [loop_of_step hreada.1, loop_of_step hreadb.1, ht]
    generalize step (Handlers.registry linter providers) (Frame.reading f.body) s = stepped at *
    obtain ⟨_ | ending, s'⟩ := stepped
    · exact ih hreada.2 hreadb.2 hunlogged
    · exact ⟨rfl, hunlogged⟩
  | @insert g frames padded hidle _ ih =>
    rw [List.flatMap_cons, List.append_assoc] at hb
    have hread := g.read_bytes hb
    obtain ⟨t', ht, hunlogged⟩ := step_idle hidle t
    rw [loop_of_step hread.1, ht]
    exact ih ha hread.2 (hst.trans hunlogged.symm)

/-- Idle frames, put in anywhere and in any number, do not tell in what a session writes, in its
documents or in its status. -/
theorem run_ignores_idle (linter : Linter σ) (providers : List (Provider σ))
    (frames padded : List Frame.Block) (tail : Bytes) (pace pace' : List Nat) (s : Session σ)
    (h : Padded (fun f => (Frame.reading f.body).Idle (Handlers.registry linter providers))
      frames padded) :
    let r := Handlers.registry linter providers
    let plain := run r ⟨frames.flatMap Frame.Block.bytes ++ tail, pace⟩ s
    let longer := run r ⟨padded.flatMap Frame.Block.bytes ++ tail, pace'⟩ s
    longer.2.2.output = plain.2.2.output ∧ longer.1 = plain.1 ∧
      longer.2.2.store = plain.2.2.store := by
  intro r plain longer
  have hsame : plain.1 = longer.1 ∧ plain.2.2.unlogged = longer.2.2.unlogged :=
    loop_padded h rfl rfl rfl
  have houtput : plain.2.2.unlogged.output = longer.2.2.unlogged.output := congrArg output hsame.2
  have hstore : plain.2.2.unlogged.store = longer.2.2.unlogged.store := congrArg store hsame.2
  exact ⟨houtput.symm, hsame.1.symm, hstore.symm⟩

end

/-- A notification that asks for the server's greeting. -/
def greetingUnasked : Frame.Block where
  blanks := [.feed]
  lines := [.contentLength [0x32, 0x33] (by decide +kernel) (by decide)]
  close := .feed
  lines_ne_nil := nofun
  digits := "23"
  body := Text.ascii "\x7b\"method\":\"initialize\"\x7d"
  declares := ⟨by decide, by decide, by decide⟩
  digits_le := by decide
  denotes := by decide +kernel
  body_le := by decide +kernel

private theorem reading_greetingUnasked :
    Frame.reading greetingUnasked.body = .message ⟨none, "initialize", .null⟩ := by
  rw [Frame.reading, Message.decode]
  simp only [greetingUnasked]
  rw [Text.Visible.decode_ascii (by decide +kernel)]
  cbv

theorem run_ignores_idle_stopping :
    let _ : Stack := .withSpare 0
    let linter : Linter Unit := { name := "silent", analyze := fun _ => return [] }
    let r := Handlers.registry linter []
    let s : Session Unit := { world := () }
    let plain := run r ⟨[stopping].flatMap Frame.Block.bytes ++ [], []⟩ s
    let longer := run r
      ⟨[greetingUnasked, Frame.twiceDeclared, stopping,
        greetingUnasked].flatMap Frame.Block.bytes ++ [], [2]⟩ s
    longer.2.2.output = plain.2.2.output ∧ longer.1 = plain.1 ∧
      longer.2.2.store = plain.2.2.store := by
  intro _ linter r
  have hgreeting : (Frame.reading greetingUnasked.body).Idle r := by
    rw [reading_greetingUnasked]
    exact .unasked rfl (.inl rfl)
  have hundecodable : (Frame.reading Frame.twiceDeclared.body).Idle r := by
    have hreading : Frame.reading Frame.twiceDeclared.body =
        .undecodable [0x5b, 0x5d] .notObject := by cbv
    rw [hreading]
    exact .undecodable
  exact run_ignores_idle linter [] _ _ [] [] [2] { world := () }
    (.insert hgreeting (.insert hundecodable (.keep (.insert hgreeting .nil))))

end Session

end RubyLanguageServer
