import RubyLanguageServer.Proofs.Answers
import RubyLanguageServer.Proofs.Edits
import RubyLanguageServer.Proofs.WireForms
/-!
# What the handlers come to

Linters and providers report and change the world, and whatever they do, failure included, is taken
as a list of issues or candidates. So a handler fails only for its parameters, and it notifies the
client once for a document that it has set, of the issues in the text just stored.
-/
namespace RubyLanguageServer

variable {σ : Type}

namespace Scene

/-- The scene with more events reported, in another world. -/
def reporting (scene : Scene σ) (log : List Event) (world : σ) : Scene σ :=
  { scene with world, effects := scene.effects ++ log.map .report }

private theorem reporting_reporting (scene : Scene σ) (log log' : List Event) (world world' : σ) :
    (scene.reporting log world).reporting log' world' = scene.reporting (log ++ log') world' := by
  simp [reporting]

theorem frames_reporting [Stack] (scene : Scene σ) (log : List Event) (world : σ) :
    (scene.reporting log world).frames = scene.frames := by
  have hnone : (log.map Effect.report).filterMap Effect.sent? = [] := by
    simp [List.filterMap_eq_nil_iff, Effect.sent?]
  rw [frames, reporting, List.filterMap_append, hnone, List.append_nil]
  rfl

end Scene

namespace Task

variable {α β : Type}

private theorem run_report (e : Event) (scene : Scene σ) :
    (report e : Task σ Unit).run.run scene = (.ok (), scene.reporting [e] scene.world) := rfl

private theorem run_attempt (p : DocumentStore → Probe σ α) (scene : Scene σ) :
    (attempt p).run.run scene =
      let found := (p scene.store).run.run { world := scene.world }
      (.ok found.1, scene.reporting found.2.log found.2.world) := rfl

/-- An analyzer whose failure is reported and taken as nothing found. -/
theorem run_attempt_or (p : DocumentStore → Probe σ (List α))
    {k : Except Failure (List α) → Task σ (List α)} (hok : ∀ items, k (.ok items) = pure items)
    (herror : ∀ failure, ∃ e, k (.error failure) = do report e; return []) (scene : Scene σ) :
    let found := (p scene.store).run.run { world := scene.world }
    ∃ log, (attempt p >>= k).run.run scene =
      (.ok (found.1.toOption.getD []), scene.reporting log found.2.world) := by
  intro found
  have hfound : (p scene.store).run.run { world := scene.world } = found := rfl
  rw [run_bind, run_attempt, hfound]
  rcases found with ⟨failure | items, bench⟩
  · obtain ⟨e, he⟩ := herror failure
    refine ⟨bench.log ++ [e], ?_⟩
    simp only [he]
    rw [← scene.reporting_reporting bench.log _ bench.world]
    rfl
  · refine ⟨bench.log, ?_⟩
    simp only [hok]
    rfl

variable [Stack]

/-- The task comes to this outcome, and these notifications are added to those before it. -/
def Comes (t : Task σ α) (scene : Scene σ) (outcome : Except Failure α) (told : List Outgoing) :
    Prop :=
  (t.run.run scene).1 = outcome ∧
    ∃ frames, (t.run.run scene).2.frames = scene.frames ++ frames ∧
      frames.map Sent.message = told

private theorem comes_of_run {t : Task σ α} {scene : Scene σ} {outcome : Except Failure α}
    {log : List Event} {world : σ} (h : t.run.run scene = (outcome, scene.reporting log world)) :
    Comes t scene outcome [] := by
  refine ⟨by rw [h], [], ?_, rfl⟩
  rw [h, Scene.frames_reporting, List.append_nil]

private theorem comes_pure (a : α) (scene : Scene σ) : Comes (pure a) scene (.ok a) [] :=
  ⟨rfl, [], (List.append_nil _).symm, rfl⟩

private theorem comes_throw (failure : Failure) (scene : Scene σ) :
    Comes (throw failure : Task σ α) scene (.error failure) [] :=
  ⟨rfl, [], (List.append_nil _).symm, rfl⟩

private theorem Comes.bind {t : Task σ α} {k : α → Task σ β} {scene : Scene σ} {a : α}
    {outcome : Except Failure β} {told told' : List Outgoing} (ht : Comes t scene (.ok a) told)
    (hk : Comes (k a) (t.run.run scene).2 outcome told') :
    Comes (t >>= k) scene outcome (told ++ told') := by
  obtain ⟨hout, frames, hframes, rfl⟩ := ht
  obtain ⟨hout', frames', hframes', rfl⟩ := hk
  have hrun : (t >>= k).run.run scene = (k a).run.run (t.run.run scene).2 := by
    rw [run_bind]
    rcases h : t.run.run scene with ⟨outcome', scene'⟩
    rw [h] at hout
    cases hout
    rfl
  refine ⟨by rw [hrun, hout'], frames ++ frames', ?_, List.map_append⟩
  rw [hrun, hframes', hframes, List.append_assoc]

private theorem comes_put (uri text : Text) (scene : Scene σ) :
    Comes (put uri text) scene (.ok ()) [] := by
  refine ⟨rfl, [], ?_, rfl⟩
  rw [List.append_nil]
  exact scene.frames_reporting [.caching text.length uri] scene.world

private theorem comes_notify {method : Text} {params : Payload} {content : Text}
    (h : (Outgoing.notification method params).body = .ok content) (scene : Scene σ) :
    Comes (notify method params) scene (.ok ()) [.notification method params] := by
  have hsent : (Effect.notify method params).sent? =
      some ⟨.notification method params, content, Payload.print_of_encode h⟩ := by
    rw [Effect.sent?, Outgoing.sent_of_body h]
    rfl
  have hnotify : (notify method params : Task σ Unit) = emit (.notify method params) := by
    simp only [notify, h]
  rw [hnotify]
  refine ⟨rfl, [⟨.notification method params, content, Payload.print_of_encode h⟩], ?_, rfl⟩
  exact List.filterMap_append.trans (congrArg _ (List.filterMap_cons_some hsent))

private theorem comes_validate_ok {shape : Shape} {params : Json} {v : Instance}
    (h : shape.check params = .ok v) {k : Instance → Task σ α} {scene : Scene σ}
    {outcome : Except Failure α} {told : List Outgoing} (hk : Comes (k v) scene outcome told) :
    Comes (do k (← validate shape params)) scene outcome told := by
  have hvalidate : (validate shape params : Task σ Instance) = pure v := by
    simp only [validate, h]
  rw [hvalidate]
  exact (comes_pure v scene).bind hk

private theorem comes_validate_error {shape : Shape} {params : Json} {failure : Schema.Failure}
    (h : shape.check params = .error failure) (k : Instance → Task σ α) (scene : Scene σ) :
    Comes (do k (← validate shape params)) scene (.error (.invalid failure)) [] := by
  have hvalidate : (validate shape params : Task σ Instance) = throw (.invalid failure) := by
    simp only [validate, h]
  rw [hvalidate]
  exact ⟨rfl, [], (List.append_nil _).symm, rfl⟩

end Task

/-- The issues that a linter finds in a text; none if it fails. -/
def Linter.issues (linter : Linter σ) (text : Text) (world : σ) : List Issue :=
  ((linter.analyze text).run.run { world }).1.toOption.getD []

/-- The candidates that a provider finds, or why it fails, and the world that it leaves. -/
def Provider.answer (provider : Provider σ) (query : Query) (store : DocumentStore) (world : σ) :
    Except Failure (List Candidate) × σ :=
  let found := (provider.complete query store).run.run { world }
  (found.1, found.2.world)

/-- What the providers answer one after the other, each in the world that the one before it has
left. -/
def Provider.answers (query : Query) (store : DocumentStore) :
    List (Provider σ) → σ → List (Except Failure (List Candidate))
  | [], _ => []
  | provider :: providers, world =>
    (provider.answer query store world).1 ::
      answers query store providers (provider.answer query store world).2

namespace Handlers

open RubyLanguageServer.Task

private theorem run_lint (linter : Linter σ) {uri text : Text} {scene : Scene σ}
    (h : scene.store.get? uri = some text) :
    ∃ log world, (lint linter uri).run.run scene =
      (.ok (linter.issues text scene.world), scene.reporting log world) := by
  have hprobe : (do linter.analyze (← Probe.text scene.store uri)) = linter.analyze text := by
    rw [Probe.text, h, pure_bind]
  obtain ⟨log, hrun⟩ : ∃ log, (lint linter uri).run.run scene = _ := by
    apply run_attempt_or
    · intro issues
      rfl
    · intro failure
      cases failure <;> exact ⟨_, rfl⟩
  rw [hprobe] at hrun
  exact ⟨log, _, hrun⟩

private theorem run_ask (provider : Provider σ) (query : Query) (scene : Scene σ) :
    ∃ log, (ask provider query).run.run scene =
      (.ok ((provider.answer query scene.store scene.world).1.toOption.getD []),
        scene.reporting log (provider.answer query scene.store scene.world).2) := by
  apply run_attempt_or
  · intro candidates
    rfl
  · intro failure
    cases failure <;> exact ⟨_, rfl⟩

private theorem run_collect (providers : List (Provider σ)) (query : Query) (scene : Scene σ) :
    ∃ log world, (collect providers query).run.run scene =
      (.ok ((Provider.answers query scene.store providers scene.world).flatMap
        (·.toOption.getD [])), scene.reporting log world) := by
  induction providers generalizing scene with
  | nil =>
    refine ⟨[], scene.world, ?_⟩
    rw [Scene.reporting, List.map_nil, List.append_nil]
    rfl
  | cons provider providers ih =>
    obtain ⟨log, hask⟩ := run_ask provider query scene
    obtain ⟨log', world, hcollect⟩ :=
      ih (scene.reporting log (provider.answer query scene.store scene.world).2)
    refine ⟨log ++ log', world, ?_⟩
    rw [collect, run_bind, hask]
    dsimp only
    rw [run_bind, hcollect, Scene.reporting_reporting]
    rfl

end Handlers

/-- No issue that the linter finds is on a line whose number has too many digits to be written. -/
def Linter.Bounded (linter : Linter σ) : Prop :=
  ∀ text bench issues, ((linter.analyze text).run.run bench).1 = .ok issues →
    ∀ issue ∈ issues, (Numeral.ofNat issue.line.natAbs).length ≤ 4300

private theorem Linter.Bounded.issues {linter : Linter σ} (h : linter.Bounded) (text : Text)
    (world : σ) :
    ∀ issue ∈ linter.issues text world, (Numeral.ofNat issue.line.natAbs).length ≤ 4300 := by
  intro issue hissue
  rw [Linter.issues] at hissue
  cases hfound : ((linter.analyze text).run.run { world }).1 with
  | ok issues =>
    rw [hfound] at hissue
    exact h text _ issues hfound issue hissue
  | error failure =>
    rw [hfound] at hissue
    cases hissue

namespace DocumentStore

theorem get?_put_self (store : DocumentStore) (uri text : Text) :
    (store.put uri text).get? uri = some text := Entries.find?_insert_self uri text store.entries

theorem get?_replay_same (store : DocumentStore) (uri : Text) {texts : List Text} {text : Text}
    (h : texts.getLast? = some text) :
    (store.replay (texts.map (uri, ·))).get? uri = some text := by
  rw [replay_same, h]
  exact store.get?_put_self uri text

end DocumentStore

namespace Handlers

open RubyLanguageServer.Task Outgoing

variable [Stack] {linter : Linter σ}

theorem comes_publish (hlinter : linter.Bounded) {uri text : Text} {scene : Scene σ}
    (h : scene.store.get? uri = some text) :
    Comes (publish linter uri) scene (.ok ())
      [publication uri linter.name (linter.issues text scene.world)] := by
  obtain ⟨log, world, hlint⟩ := run_lint linter h
  obtain ⟨content, hbody⟩ :=
    publication_body_ok uri linter.name (hlinter.issues text scene.world)
  apply (comes_of_run hlint).bind
  apply (comes_of_run (run_report _ _)).bind
  exact comes_notify hbody _

private theorem comes_didOpen (hlinter : linter.Bounded) {call : Call} {v : Instance}
    {uri text : Text} (hv : Catalog.didOpen.check call.message.params = .ok v)
    (huri : (v.field "textDocument").field "uri" = .text uri)
    (htext : (v.field "textDocument").field "text" = .text text) (scene : Scene σ) :
    Comes (didOpen linter call) scene (.ok .null)
      [publication uri linter.name (linter.issues text scene.world)] := by
  apply comes_validate_ok hv
  simp only [huri, htext]
  apply (comes_put uri text scene).bind
  have hstored : ((put uri text : Task σ Unit).run.run scene).2.store.get? uri = some text :=
    scene.store.get?_put_self uri text
  exact (comes_publish hlinter hstored).bind (comes_pure _ _)

private theorem comes_putAll (uri : Text) (changes : List Instance) (scene : Scene σ) :
    Comes (putAll uri changes) scene (.ok ()) [] ∧
      ((putAll uri changes : Task σ Unit).run.run scene).2.world = scene.world := by
  induction changes generalizing scene with
  | nil => exact ⟨comes_pure () scene, rfl⟩
  | cons change changes ih =>
    obtain ⟨hcomes, hworld⟩ :=
      ih ((put uri (change.field "text").asText : Task σ Unit).run.run scene).2
    exact ⟨(comes_put uri _ scene).bind hcomes, hworld⟩

private theorem comes_didChange (hlinter : linter.Bounded) {call : Call} {v : Instance} {uri : Text}
    {changes : List Instance} (hv : Catalog.didChange.check call.message.params = .ok v)
    (huri : (v.field "textDocument").field "uri" = .text uri)
    (hchanges : v.field "contentChanges" = .list changes) (scene : Scene σ) :
    Comes (didChange linter call) scene (.ok .null)
      ((changes.map fun change => (change.field "text").asText).getLast?.map fun text =>
        publication uri linter.name (linter.issues text scene.world)).toList := by
  apply comes_validate_ok hv
  simp only [huri, hchanges]
  cases changes with
  | nil => exact (comes_of_run (run_report _ _)).bind (comes_pure _ _)
  | cons change changes =>
    obtain ⟨text, hlast⟩ : ∃ text, ((change :: changes).map fun change =>
        (change.field "text").asText).getLast? = some text :=
      ⟨_, List.getLast?_cons⟩
    obtain ⟨hput, hworld⟩ := comes_putAll uri (change :: changes) scene
    have hstored : ((putAll uri (change :: changes) : Task σ Unit).run.run scene).2.store.get? uri =
        some text := by
      rw [(writes_putAll uri (change :: changes) scene).1,
        ← scene.store.get?_replay_same uri hlast, List.map_map]
      rfl
    have hpublish := comes_publish hlinter hstored
    rw [hworld] at hpublish
    rw [hlast]
    exact hput.bind (hpublish.bind (comes_pure _ _))

private theorem comes_completion (providers : List (Provider σ)) {call : Call} {v : Instance}
    {uri : Text} {line character : Int} (hv : Catalog.completion.check call.message.params = .ok v)
    (huri : (v.field "textDocument").field "uri" = .text uri)
    (hline : (v.field "position").field "line" = .integer line)
    (hcharacter : (v.field "position").field "character" = .integer character)
    (scene : Scene σ) :
    Comes (completion providers call) scene
      (.ok (completionItems
        ((Provider.answers ⟨uri, line, character⟩ scene.store providers scene.world).flatMap
          (·.toOption.getD [])))) [] := by
  obtain ⟨log, world, hcollect⟩ := run_collect providers ⟨uri, line, character⟩ scene
  apply comes_validate_ok hv
  simp only [huri, hline, hcharacter]
  exact (comes_of_run hcollect).bind (comes_pure _ _)

/-- The shape that the parameters of a method must have, if the method takes any. -/
def schema? (method : Text) : Option Shape :=
  if method = "textDocument/didOpen" then some Catalog.didOpen
  else if method = "textDocument/didChange" then some Catalog.didChange
  else if method = "textDocument/completion" then some Catalog.completion
  else none

end Handlers

namespace Message

/-- The parameters are not of the shape that the method takes. -/
def Rejected (m : Message) (failure : Schema.Failure) : Prop :=
  ∃ shape, Handlers.schema? m.method = some shape ∧ shape.check m.params = .error failure

theorem Rejected.unique {m : Message} {failure failure' : Schema.Failure} (h : m.Rejected failure)
    (h' : m.Rejected failure') : failure = failure' := by
  obtain ⟨shape, hshape, hfailure⟩ := h
  obtain ⟨shape', hshape', hfailure'⟩ := h'
  cases hshape.symm.trans hshape'
  cases hfailure.symm.trans hfailure'
  rfl

/-- The result that the client is to get for a message that finds the documents and the world like
this. -/
inductive Earns (providers : List (Provider σ)) (store : DocumentStore) (world : σ) (m : Message) :
    Json → Prop
  | greeting : m.method = "initialize" → Earns providers store world m Handlers.greetingObject
  | shutdown : m.method = "shutdown" → Earns providers store world m .null
  | exit : m.method = "exit" → Earns providers store world m .null
  | opened {v : Instance} : m.method = "textDocument/didOpen" →
      Catalog.didOpen.check m.params = .ok v → Earns providers store world m .null
  | changed {v : Instance} : m.method = "textDocument/didChange" →
      Catalog.didChange.check m.params = .ok v → Earns providers store world m .null
  | completed {v : Instance} {uri : Text} {line character : Int} :
      m.method = "textDocument/completion" → Catalog.completion.check m.params = .ok v →
      (v.field "textDocument").field "uri" = .text uri →
      (v.field "position").field "line" = .integer line →
      (v.field "position").field "character" = .integer character →
      Earns providers store world m
        (.array (((Provider.answers ⟨uri, line, character⟩ store providers world).flatMap
          (·.toOption.getD [])).map Candidate.toJson))
  | resolved : m.method = "completionItem/resolve" → Earns providers store world m m.params

variable [Stack]

/-- If the message is one that is sent back, the stack has room for what it carries. -/
def Echoable (m : Message) : Prop :=
  m.method = "completionItem/resolve" → m.params.fits Stack.room = true

/-- The client gets this as the result of the outcome, if it can be sent back. -/
inductive Gives (m : Message) (result : Json) : Except Failure Payload → Prop
  | payload {p : Payload} : p.wire? = some result → result.Short →
      (m.Echoable → p.Converts Stack.room) → Gives m result (.ok p)
  | shutdown {code : Int} {reason : Text} : result = .null →
      Gives m result (.error (.shutdown code reason))

private theorem gives_null (m : Message) : m.Gives .null (.ok .null) :=
  .payload rfl .null fun _ =>
    Payload.converts_json Stack.room_pos (Json.fits_of_pos Stack.room_pos fun _ => rfl)

end Message

/-- The notification of the issues in the document that a message sets. -/
def Message.publication? (linter : Linter σ) (world : σ) (m : Message) : Option Outgoing :=
  m.edit?.map fun edit => .publication edit.1 linter.name (linter.issues edit.2 world)

namespace Handlers

open RubyLanguageServer.Task Outgoing

variable {linter : Linter σ} {providers : List (Provider σ)} {m : Message}

private theorem publication?_eq_none {method : Text} (hm : m.method = method)
    (hopen : method ≠ "textDocument/didOpen") (hchange : method ≠ "textDocument/didChange")
    (world : σ) : m.publication? linter world = none := by
  subst hm
  rw [Message.publication?, edit?_eq_none hopen hchange]
  rfl

variable [Stack]

/-- What the handler of a message is to do: it fails for parameters that are not of the right shape,
else it gives the result that the message earns, and it tells the client of the document that the
message sets. -/
def Fulfils (linter : Linter σ) (providers : List (Provider σ)) (m : Message) (t : Task σ Payload) :
    Prop :=
  ∀ scene, ∃ outcome, Comes t scene outcome (m.publication? linter scene.world).toList ∧
    ((∃ failure, m.Rejected failure ∧ outcome = .error (.invalid failure)) ∨
      ∃ result, m.Earns providers scene.store scene.world result ∧ m.Gives result outcome)

private theorem fulfils_didOpen (hlinter : linter.Bounded) (hm : m.method = "textDocument/didOpen")
    (given : List Collaborator) : Fulfils linter providers m (didOpen linter ⟨m, given⟩) := by
  intro scene
  cases hv : Catalog.didOpen.check m.params with
  | error failure =>
    refine ⟨.error (.invalid failure), ?_, .inl ⟨failure, ⟨_, ?_, hv⟩, rfl⟩⟩
    · rw [Message.publication?, Message.edit?_didOpen_error hm hv]
      exact comes_validate_error hv _ scene
    · rw [hm]
      rfl
  | ok v =>
    obtain ⟨uri, text, huri, htext⟩ := Catalog.didOpen_ok hv
    refine ⟨.ok .null, ?_, .inr ⟨.null, .opened hm hv, m.gives_null⟩⟩
    rw [Message.publication?, Message.edit?_didOpen hm hv huri htext]
    exact comes_didOpen hlinter hv huri htext scene

private theorem fulfils_didChange (hlinter : linter.Bounded)
    (hm : m.method = "textDocument/didChange")
    (given : List Collaborator) : Fulfils linter providers m (didChange linter ⟨m, given⟩) := by
  intro scene
  cases hv : Catalog.didChange.check m.params with
  | error failure =>
    refine ⟨.error (.invalid failure), ?_, .inl ⟨failure, ⟨_, ?_, hv⟩, rfl⟩⟩
    · rw [Message.publication?, Message.edit?_didChange_error hm hv]
      exact comes_validate_error hv _ scene
    · rw [hm]
      rfl
  | ok v =>
    obtain ⟨uri, changes, huri, hchanges, htexts⟩ := Catalog.didChange_ok hv
    refine ⟨.ok .null, ?_, .inr ⟨.null, .changed hm hv, m.gives_null⟩⟩
    rw [Message.publication?, Message.edit?_didChange hm hv huri hchanges htexts, Option.map_map]
    exact comes_didChange hlinter hv huri hchanges scene

private theorem fulfils_completion (hm : m.method = "textDocument/completion")
    (given : List Collaborator) : Fulfils linter providers m (completion providers ⟨m, given⟩) := by
  intro scene
  rw [publication?_eq_none hm (by decide) (by decide)]
  cases hv : Catalog.completion.check m.params with
  | error failure =>
    refine ⟨_, comes_validate_error hv _ scene, .inl ⟨failure, ⟨_, ?_, hv⟩, rfl⟩⟩
    rw [hm]
    rfl
  | ok v =>
    obtain ⟨uri, line, character, huri, hline, hcharacter⟩ := Catalog.completion_ok hv
    refine ⟨_, comes_completion providers hv huri hline hcharacter scene,
      .inr ⟨_, .completed hm hv huri hline hcharacter, ?_⟩⟩
    obtain ⟨hconverts, v, hwire, hshort⟩ := writable_completionItems
      ((Provider.answers ⟨uri, line, character⟩ scene.store providers scene.world).flatMap
        (·.toOption.getD []))
    cases hwire.symm.trans (wire?_completionItems _)
    exact .payload hwire hshort fun _ => hconverts

private theorem fulfils_other {method : Text} (hm : m.method = method)
    (hopen : method ≠ "textDocument/didOpen") (hchange : method ≠ "textDocument/didChange")
    {t : Task σ Payload} {outcome : Except Failure Payload} {result : Json}
    (ht : ∀ scene, Comes t scene outcome [])
    (hearns : ∀ store world, m.Earns providers store world result)
    (hgives : m.Gives result outcome) : Fulfils linter providers m t := by
  intro scene
  rw [publication?_eq_none hm hopen hchange]
  exact ⟨outcome, ht scene, .inr ⟨result, hearns _ _, hgives⟩⟩

/-- Every handler does what it is to do. -/
theorem fulfils_of_find (hlinter : linter.Bounded) {h : Handler σ}
    (hfind : (registry linter providers).find m.method = some h) (hparams : m.params.Printable)
    (given : List Collaborator) : Fulfils linter providers m (h.run ⟨m, given⟩) := by
  have hmem := mem_table_of_find hfind
  simp only [table, List.mem_cons, List.not_mem_nil, or_false, Prod.mk.injEq] at hmem
  rcases hmem with ⟨hm, rfl⟩ | ⟨hm, rfl⟩ | ⟨hm, rfl⟩ | ⟨hm, rfl⟩ | ⟨hm, rfl⟩ | ⟨hm, rfl⟩ | ⟨hm, rfl⟩
  · obtain ⟨hconverts, v, hwire, hshort⟩ := writable_greeting
    cases hwire
    exact fulfils_other hm (by decide) (by decide) (comes_pure _) (fun _ _ => .greeting hm)
      (.payload rfl hshort fun _ => hconverts)
  · exact fulfils_other hm (by decide) (by decide) (comes_throw _) (fun _ _ => .shutdown hm)
      (.shutdown rfl)
  · exact fulfils_other hm (by decide) (by decide) (comes_throw _) (fun _ _ => .exit hm)
      (.shutdown rfl)
  · exact fulfils_didOpen hlinter hm given
  · exact fulfils_didChange hlinter hm given
  · exact fulfils_completion hm given
  · exact fulfils_other hm (by decide) (by decide) (comes_pure _) (fun _ _ => .resolved hm)
      (.payload rfl ((Json.printable_iff_short _).mp hparams) fun hechoable =>
        Payload.converts_json Stack.room_pos (hechoable hm))

end Handlers

end RubyLanguageServer
