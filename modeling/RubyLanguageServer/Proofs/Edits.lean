import Mathlib.Data.List.Induction
import RubyLanguageServer.Proofs.Entries
import RubyLanguageServer.Proofs.Validation
import RubyLanguageServer.Server.Handlers
/-!
# What the handlers' tasks write

The documents are written by `Task.put` alone, and only before the linter is called. So what a
handler does to the documents does not depend on linter and providers, and their failures, be it a
shutdown, never become the handler's.
-/
namespace RubyLanguageServer

namespace Task

variable {σ α β : Type} {f : DocumentStore → DocumentStore}

/-- The task changes the documents by `f` whether it fails or not. If it ends the session, then with
status 0. -/
def Writes (f : DocumentStore → DocumentStore) (t : Task σ α) : Prop :=
  ∀ scene, (t.run.run scene).2.store = f scene.store ∧
    ∀ code reason, (t.run.run scene).1 = .error (.shutdown code reason) → code = 0

theorem run_bind (t : Task σ α) (k : α → Task σ β) (scene : Scene σ) :
    (t >>= k).run.run scene =
      match t.run.run scene with
      | (.ok a, scene) => (k a).run.run scene
      | (.error e, scene) => (.error e, scene) := by
  rcases h : t.run.run scene with ⟨_ | a, scene'⟩
  all_goals
    simp only [ExceptT.run_bind, StateT.run_bind, h]
    rfl

private theorem writes_pure (a : α) : Writes id (pure a : Task σ α) :=
  fun _ => ⟨rfl, fun _ _ => nofun⟩

private theorem writes_throw {failure : Failure}
    (h : ∀ code reason, failure = .shutdown code reason → code = 0) :
    Writes id (throw failure : Task σ α) :=
  fun _ => ⟨rfl, fun code reason heq => h code reason (Except.error.inj heq)⟩

/-- What follows a task may read the documents only. -/
theorem Writes.bind {t : Task σ α} {k : α → Task σ β} (ht : Writes f t)
    (hk : ∀ a, Writes id (k a)) : Writes f (t >>= k) := by
  intro scene
  obtain ⟨hstore, hends⟩ := ht scene
  rw [run_bind]
  rcases h : t.run.run scene with ⟨e | a, scene'⟩
  · rw [h] at hstore hends
    refine ⟨hstore, fun code reason heq => hends code reason ?_⟩
    exact congrArg Except.error (Except.error.inj heq)
  · rw [h] at hstore
    exact ⟨(hk a scene').1.trans hstore, (hk a scene').2⟩

private theorem writes_report (e : Event) : Writes id (report e : Task σ Unit) :=
  fun _ => ⟨rfl, fun _ _ => nofun⟩

private theorem writes_notify [Stack] (method : Text) (params : Payload) :
    Writes id (notify method params : Task σ Unit) := by
  rw [notify]
  split
  · exact fun _ => ⟨rfl, fun _ _ => nofun⟩
  · exact writes_throw fun _ _ => nofun

private theorem writes_attempt (p : DocumentStore → Probe σ α) : Writes id (attempt p) :=
  fun _ => ⟨rfl, fun _ _ => nofun⟩

theorem Writes.after_put {t : Task σ α} (ht : Writes f t) (uri text : Text) :
    Writes (fun store => f (store.put uri text)) (do put uri text; t) := by
  intro scene
  exact ht _

private theorem writes_validate (shape : Shape) (params : Json) :
    Writes id (validate shape params : Task σ Instance) := by
  rw [validate]
  split
  · exact writes_pure _
  · exact writes_throw fun _ _ => nofun

theorem writes_validate_bind {shape : Shape} {params : Json} {k : Instance → Task σ α}
    (hvalid : ∀ v, shape.check params = .ok v → Writes f (k v))
    (hinvalid : ∀ e, shape.check params = .error e → f = id) :
    Writes f (do k (← validate shape params)) := by
  intro scene
  rw [run_bind, validate]
  cases hcheck : shape.check params with
  | ok v => exact hvalid v hcheck scene
  | error e =>
    rw [hinvalid e hcheck]
    exact ⟨rfl, fun _ _ => nofun⟩

end Task

namespace DocumentStore

def replay (store : DocumentStore) (edits : List (Text × Text)) : DocumentStore :=
  edits.foldl (fun store edit => store.put edit.1 edit.2) store

private theorem put_put (store : DocumentStore) (uri first second : Text) :
    (store.put uri first).put uri second = store.put uri second :=
  congrArg (mk store.roots) (Entries.insert_insert uri first second store.entries)

theorem replay_same (store : DocumentStore) (uri : Text) (texts : List Text) :
    store.replay (texts.map (uri, ·)) = store.replay (texts.getLast?.map (uri, ·)).toList := by
  induction texts using List.reverseRecOn with
  | nil => rfl
  | append_singleton texts text ih =>
    have hlast : store.replay ((texts ++ [text]).map (uri, ·)) =
        (store.replay (texts.map (uri, ·))).put uri text := by
      rw [List.map_append, replay, List.foldl_append]
      rfl
    rw [hlast, ih, List.getLast?_concat]
    cases texts.getLast? with
    | none => rfl
    | some first => exact store.put_put uri first text

end DocumentStore

/-- The document that a message sets, and the text that it gets. -/
def Message.edit? (m : Message) : Option (Text × Text) :=
  if m.method = "textDocument/didOpen" then
    match Catalog.didOpen.check m.params with
    | .ok v => do
      let uri ← ((v.field "textDocument").field "uri").asText?
      let text ← ((v.field "textDocument").field "text").asText?
      return (uri, text)
    | .error _ => none
  else if m.method = "textDocument/didChange" then
    match Catalog.didChange.check m.params with
    | .ok v => do
      let uri ← ((v.field "textDocument").field "uri").asText?
      let change ← (v.field "contentChanges").asList.getLast?
      let text ← (change.field "text").asText?
      return (uri, text)
    | .error _ => none
  else none

namespace Message

variable {m : Message}

theorem edit?_didOpen (hmethod : m.method = "textDocument/didOpen") {v : Instance}
    {uri text : Text} (hv : Catalog.didOpen.check m.params = .ok v)
    (huri : (v.field "textDocument").field "uri" = .text uri)
    (htext : (v.field "textDocument").field "text" = .text text) :
    m.edit? = some (uri, text) := by
  simp only [edit?, if_pos hmethod, hv, huri, htext]
  rfl

theorem edit?_didOpen_error (hmethod : m.method = "textDocument/didOpen") {e : Schema.Failure}
    (he : Catalog.didOpen.check m.params = .error e) : m.edit? = none := by
  simp only [edit?, if_pos hmethod, he]

private theorem not_didOpen_of_didChange (hmethod : m.method = "textDocument/didChange") :
    m.method ≠ "textDocument/didOpen" := by
  rw [hmethod]
  decide

theorem edit?_didChange (hmethod : m.method = "textDocument/didChange") {v : Instance}
    {uri : Text} {changes : List Instance} (hv : Catalog.didChange.check m.params = .ok v)
    (huri : (v.field "textDocument").field "uri" = .text uri)
    (hchanges : v.field "contentChanges" = .list changes)
    (htexts : ∀ change ∈ changes, ∃ text, change.field "text" = .text text) :
    m.edit? = (changes.map fun change => (change.field "text").asText).getLast?.map (uri, ·) := by
  simp only [edit?, if_neg (not_didOpen_of_didChange hmethod), if_pos hmethod, hv, huri, hchanges,
    Instance.asList, List.getLast?_map]
  cases hlast : changes.getLast? with
  | none => rfl
  | some change =>
    obtain ⟨text, htext⟩ := htexts change (List.mem_of_getLast? hlast)
    simp only [Instance.asText?, Option.bind_eq_bind, Option.bind_some, htext, Option.map_some]
    rfl

theorem edit?_didChange_error (hmethod : m.method = "textDocument/didChange")
    {e : Schema.Failure} (he : Catalog.didChange.check m.params = .error e) : m.edit? = none := by
  simp only [edit?, if_neg (not_didOpen_of_didChange hmethod), if_pos hmethod, he]

end Message

namespace Handlers

open RubyLanguageServer.Task

variable {σ : Type}

private theorem writes_lint (linter : Linter σ) (uri : Text) : Writes id (lint linter uri) := by
  apply (writes_attempt _).bind
  intro outcome
  split
  · exact writes_pure _
  · exact (writes_report _).bind fun _ => writes_pure _
  · exact (writes_report _).bind fun _ => writes_pure _

private theorem writes_publish [Stack] (linter : Linter σ) (uri : Text) : Writes id
    (publish linter uri) := by
  apply (writes_lint linter uri).bind
  intro issues
  exact (writes_report _).bind fun _ => writes_notify _ _

private theorem writes_ask (provider : Provider σ) (query : Query) :
    Writes id (ask provider query) := by
  apply (writes_attempt _).bind
  intro outcome
  split
  · exact writes_pure _
  · exact (writes_report _).bind fun _ => writes_pure _
  · exact (writes_report _).bind fun _ => writes_pure _

private theorem writes_collect (providers : List (Provider σ)) (query : Query) :
    Writes id (collect providers query) := by
  induction providers with
  | nil => exact writes_pure _
  | cons provider providers ih =>
    apply (writes_ask provider query).bind
    intro first
    exact ih.bind fun _ => writes_pure _

private theorem writes_didOpen [Stack] (linter : Linter σ) {call : Call}
    (hmethod : call.message.method = "textDocument/didOpen") :
    Writes (·.replay call.message.edit?.toList) (didOpen linter call) := by
  apply writes_validate_bind
  · intro v hv
    obtain ⟨uri, text, huri, htext⟩ := Catalog.didOpen_ok hv
    rw [Message.edit?_didOpen hmethod hv huri htext]
    simp only [huri, htext]
    exact ((writes_publish linter uri).bind fun _ => writes_pure _).after_put uri text
  · intro e he
    rw [Message.edit?_didOpen_error hmethod he]
    rfl

theorem writes_putAll (uri : Text) (changes : List Instance) :
    Writes (·.replay (changes.map fun change => (uri, (change.field "text").asText)))
      (putAll uri changes : Task σ Unit) := by
  induction changes with
  | nil => exact writes_pure _
  | cons change changes ih => exact ih.after_put _ _

private theorem writes_didChange [Stack] (linter : Linter σ) {call : Call}
    (hmethod : call.message.method = "textDocument/didChange") :
    Writes (·.replay call.message.edit?.toList) (didChange linter call) := by
  apply writes_validate_bind
  · intro v hv
    obtain ⟨uri, changes, huri, hchanges, htexts⟩ := Catalog.didChange_ok hv
    rw [Message.edit?_didChange hmethod hv huri hchanges htexts]
    simp only [huri, hchanges, ← DocumentStore.replay_same, List.map_map]
    cases changes with
    | nil => exact (writes_report _).bind fun _ => writes_pure _
    | cons change changes =>
      apply (writes_putAll uri (change :: changes)).bind
      intro _
      exact (writes_publish linter uri).bind fun _ => writes_pure _
  · intro e he
    rw [Message.edit?_didChange_error hmethod he]
    rfl

private theorem writes_completion (providers : List (Provider σ)) (call : Call) :
    Writes id (completion providers call) := by
  apply (writes_validate _ _).bind
  intro v
  exact (writes_collect providers _).bind fun _ => writes_pure _

theorem mem_table_of_find [Stack] {linter : Linter σ} {providers : List (Provider σ)}
    {method : Text} {h : Handler σ} (hfind : (registry linter providers).find method = some h) :
    (method, h) ∈ table linter providers := by
  obtain ⟨entry, hentry, rfl⟩ := Option.map_eq_some_iff.mp hfind
  obtain ⟨⟨name, handler⟩, hmem, rfl⟩ := List.mem_map.mp (List.mem_of_find?_eq_some hentry)
  have haccepts := List.find?_some hentry
  have hname : name = method := of_decide_eq_true haccepts
  subst hname
  exact hmem

theorem edit?_eq_none {m : Message} (hopen : m.method ≠ "textDocument/didOpen")
    (hchange : m.method ≠ "textDocument/didChange") : m.edit? = none := by
  rw [Message.edit?, if_neg hopen, if_neg hchange]

private theorem writes_other {t : Task σ Payload} (ht : Writes id t) {m : Message} {method : Text}
    (hm : m.method = method) (hopen : method ≠ "textDocument/didOpen")
    (hchange : method ≠ "textDocument/didChange") : Writes (·.replay m.edit?.toList) t := by
  subst hm
  rw [edit?_eq_none hopen hchange]
  exact ht

theorem writes_of_find [Stack] {linter : Linter σ} {providers : List (Provider σ)} {m : Message}
    {h : Handler σ} (hfind : (registry linter providers).find m.method = some h)
    (given : List Collaborator) :
    Writes (·.replay m.edit?.toList) (h.run ⟨m, given⟩) := by
  have hmem := mem_table_of_find hfind
  simp only [table, List.mem_cons, List.not_mem_nil, or_false, Prod.mk.injEq] at hmem
  rcases hmem with ⟨hm, rfl⟩ | ⟨hm, rfl⟩ | ⟨hm, rfl⟩ | ⟨hm, rfl⟩ | ⟨hm, rfl⟩ | ⟨hm, rfl⟩ | ⟨hm, rfl⟩
  · exact writes_other (writes_pure _) hm (by decide) (by decide)
  · exact writes_other (writes_throw fun _ _ h => (Failure.shutdown.inj h).1.symm) hm (by decide)
      (by decide)
  · exact writes_other (writes_throw fun _ _ h => (Failure.shutdown.inj h).1.symm) hm (by decide)
      (by decide)
  · exact writes_didOpen linter hm
  · exact writes_didChange linter hm
  · exact writes_other (writes_completion providers _) hm (by decide) (by decide)
  · exact writes_other (writes_pure _) hm (by decide) (by decide)

theorem edit?_of_find_none [Stack] {linter : Linter σ} {providers : List (Provider σ)} {m : Message}
    (hfind : (registry linter providers).find m.method = none) : m.edit? = none := by
  apply edit?_eq_none
  · intro hm
    rw [hm] at hfind
    cases hfind
  · intro hm
    rw [hm] at hfind
    cases hfind

end Handlers

end RubyLanguageServer
