import RubyLanguageServer.Proofs.Diagnostics
/-!
# Snapshots of the document store

A store is written and asked, and snapshots of it are taken and drained, in any order. What is found
then depends on the puts before only, and a snapshot gives what the store held when it was taken.
-/
namespace RubyLanguageServer

namespace Entries

variable {α : Type}

theorem filterMap_find? {es : Entries α} (h : (es.map Prod.fst).Nodup) :
    (es.map Prod.fst).filterMap (fun key => (find? key es).map (key, ·)) = es := by
  induction es with
  | nil => rfl
  | cons e es ih =>
    rw [List.map_cons, List.nodup_cons] at h
    have hrest : ∀ key ∈ es.map Prod.fst, find? key (e :: es) = find? key es := by
      intro key hkey
      apply if_neg
      rintro rfl
      exact h.1 hkey
    have hcongr := List.filterMap_congr fun key hkey =>
      congrArg (Option.map (key, ·)) (hrest key hkey)
    rw [List.map_cons, List.filterMap_cons, hcongr, ih h.2, find?, if_pos rfl]
    rfl

end Entries

theorem Probe.run_text {σ : Type} (store : DocumentStore) (uri : Text) (bench : Bench σ) :
    ((Probe.text store uri).run.run bench).1 =
      match store.get? uri with
      | some text => .ok text
      | none => .error (.noDocument uri) := by
  rw [Probe.text]
  cases store.get? uri <;> rfl

namespace DocumentStore

/-- The text of the last of some puts to a document. -/
def lastText? (puts : List (Text × Text)) (uri : Text) : Option Text :=
  (puts.filter (·.1 = uri)).getLast?.map Prod.snd

/-- What puts leave: each document once, in the order of the first puts, with its last text. -/
def latest (puts : List (Text × Text)) : List (Text × Text) :=
  (puts.map Prod.fst).eraseDups.filterMap fun uri => (lastText? puts uri).map (uri, ·)

private theorem nodup_uris_replay (roots : List Text) (puts : List (Text × Text)) :
    (replay { roots } puts).uris.Nodup := by
  rw [uris_replay]
  exact Text.nodup_eraseDups _

private theorem items_replay (roots : List Text) (puts : List (Text × Text)) :
    (replay { roots } puts).items = latest puts := by
  have hentries := Entries.filterMap_find? (nodup_uris_replay roots puts)
  have hfind : ∀ uri, Entries.find? uri (replay { roots } puts).entries = lastText? puts uri :=
    get?_replay roots puts
  have huris : (replay { roots } puts).entries.map Prod.fst = (puts.map Prod.fst).eraseDups :=
    uris_replay roots puts
  simp only [hfind, huris] at hentries
  exact hentries.symm

private theorem uris_latest (puts : List (Text × Text)) :
    (latest puts).map Prod.fst = (puts.map Prod.fst).eraseDups := by
  rw [← items_replay [], ← uris_replay []]
  rfl

private theorem lastText?_of_mem_latest {puts : List (Text × Text)} {document : Text × Text}
    (h : document ∈ latest puts) : lastText? puts document.1 = some document.2 := by
  obtain ⟨uri, -, hdocument⟩ := List.mem_filterMap.mp h
  obtain ⟨text, htext, rfl⟩ := Option.map_eq_some_iff.mp hdocument
  exact htext

theorem lastText?_eq_none_iff {puts : List (Text × Text)} {uri : Text} :
    lastText? puts uri = none ↔ ∀ text, (uri, text) ∉ puts := by
  rw [lastText?, Option.map_eq_none_iff, List.getLast?_eq_none_iff, List.filter_eq_nil_iff]
  constructor
  · intro h text hmem
    exact h _ hmem (decide_eq_true rfl)
  · rintro h ⟨other, text⟩ hmem huri
    obtain rfl : other = uri := of_decide_eq_true huri
    exact h text hmem

theorem contains_iff (store : DocumentStore) (uri : Text) :
    store.contains uri = true ↔ uri ∈ store.uris := by
  have hnone : store.get? uri = none ↔ uri ∉ store.uris := Entries.find?_eq_none_iff
  rw [contains, Option.isSome_iff_ne_none]
  exact (not_congr hnone).trans not_not

end DocumentStore

/-- A store, and what is left of the snapshots that were taken of it, under their names. -/
structure Desk where
  store : DocumentStore
  snapshots : Entries Snapshot := []

namespace Desk

inductive Operation where
  | put (uri text : Text)
  | get (uri : Text)
  | contains (uri : Text)
  | size
  | uris
  | items
  | snapshot (name : Text)
  | drain (name : Text)
deriving DecidableEq

def Operation.put? : Operation → Option (Text × Text)
  | .put uri text => some (uri, text)
  | _ => none

private theorem mem_puts {uri text : Text} {ops : List Operation} :
    (uri, text) ∈ ops.filterMap Operation.put? ↔ .put uri text ∈ ops := by
  rw [List.mem_filterMap]
  constructor
  · rintro ⟨op, hmem, hput⟩
    cases op with
    | put =>
      cases hput
      exact hmem
    | _ => cases hput
  · intro hmem
    exact ⟨_, hmem, rfl⟩

inductive Answer where
  | done
  | text (outcome : Except Failure Text)
  | flag (b : Bool)
  | count (n : Nat)
  | uris (uris : List Text)
  | documents (documents : List (Text × Text))

/-- The snapshot of a name; there is nothing in one that was never taken. -/
def held (d : Desk) (name : Text) : Snapshot := (Entries.find? name d.snapshots).getD ⟨[]⟩

def hold (d : Desk) (name : Text) (s : Snapshot) : Desk :=
  { d with snapshots := Entries.insert name s d.snapshots }

def perform (d : Desk) : Operation → Answer × Desk
  | .put uri text => (.done, { d with store := d.store.put uri text })
  | .get uri => (.text ((Probe.text d.store uri : Probe Unit Text).run.run { world := () }).1, d)
  | .contains uri => (.flag (d.store.contains uri), d)
  | .size => (.count d.store.size, d)
  | .uris => (.uris d.store.uris, d)
  | .items => (.documents d.store.items, d)
  | .snapshot name => (.done, d.hold name (.take d.store))
  | .drain name => (.documents (d.held name).drain.1, d.hold name (d.held name).drain.2)

def after (d : Desk) (ops : List Operation) : Desk := ops.foldl (fun d op => (d.perform op).2) d

/-- What an operation gives after others on an empty store. -/
def answer (roots : List Text) (before : List Operation) (op : Operation) : Answer :=
  ((after { store := { roots } } before).perform op).1

private theorem after_append (d : Desk) (ops later : List Operation) :
    d.after (ops ++ later) = (d.after ops).after later := List.foldl_append

private theorem held_hold_self (d : Desk) (name : Text) (s : Snapshot) : (d.hold name s).held name =
    s := by
  rw [held, hold, Entries.find?_insert_self, Option.getD_some]

private theorem held_hold_of_ne {name other : Text} (h : other ≠ name) (d : Desk) (s : Snapshot) :
    (d.hold other s).held name = d.held name := by
  rw [held, hold, Entries.find?_insert_of_ne h, held]

private theorem store_perform (d : Desk) (op : Operation) :
    (d.perform op).2.store = d.store.replay op.put?.toList := by
  cases op <;> rfl

private theorem store_after (d : Desk) (ops : List Operation) :
    (d.after ops).store = d.store.replay (ops.filterMap Operation.put?) := by
  induction ops generalizing d with
  | nil => rfl
  | cons op ops ih =>
    have hputs : (op :: ops).filterMap Operation.put? =
        op.put?.toList ++ ops.filterMap Operation.put? := by cases op <;> rfl
    rw [hputs, DocumentStore.replay_append, ← store_perform]
    exact ih _

/-- No operation touches a snapshot but that it is taken anew or drained. -/
theorem held_perform {name : Text} {op : Operation} (htake : op ≠ .snapshot name)
    (hdrain : op ≠ .drain name) (d : Desk) : (d.perform op).2.held name = d.held name := by
  cases op with
  | snapshot other =>
    have hne : other ≠ name := fun h => htake (congrArg Operation.snapshot h)
    exact held_hold_of_ne hne d _
  | drain other =>
    have hne : other ≠ name := fun h => hdrain (congrArg Operation.drain h)
    exact held_hold_of_ne hne d _
  | _ => rfl

private theorem held_drain (d : Desk) (name : Text) :
    (d.perform (.drain name)).2.held name = ⟨[]⟩ :=
  held_hold_self d name _

/-- A snapshot stays as it is until it is drained, and is empty from then on. -/
theorem held_after {name : Text} {since : List Operation} (h : .snapshot name ∉ since) (d : Desk) :
    (.drain name ∉ since → (d.after since).held name = d.held name) ∧
    (.drain name ∈ since → (d.after since).held name = ⟨[]⟩) := by
  induction since generalizing d with
  | nil => exact ⟨fun _ => rfl, nofun⟩
  | cons op since ih =>
    rw [List.mem_cons, not_or] at h
    obtain ⟨hkept, hempty⟩ := ih h.2 (d.perform op).2
    have hafter : d.after (op :: since) = (d.perform op).2.after since := rfl
    rw [hafter]
    constructor
    · intro hdrain
      rw [List.mem_cons, not_or] at hdrain
      rw [hkept hdrain.2, held_perform (Ne.symm h.1) (Ne.symm hdrain.1)]
    · intro hdrain
      -- The last drain of the snapshot decides: a later operation, or this one.
      by_cases hlater : .drain name ∈ since
      · exact hempty hlater
      · obtain rfl : .drain name = op := (List.mem_cons.mp hdrain).resolve_right hlater
        rw [hkept hlater, held_drain]

section Answers

variable (roots : List Text) (before : List Operation)

private theorem answer_get (uri : Text) : answer roots before (.get uri) =
    .text (match DocumentStore.lastText? (before.filterMap Operation.put?) uri with
      | some text => .ok text
      | none => .error (.noDocument uri)) := by
  rw [answer, perform, Probe.run_text, store_after, DocumentStore.get?_replay]
  rfl

theorem answer_get_eq_error_iff (uri : Text) :
    answer roots before (.get uri) = .text (.error (.noDocument uri)) ↔
      ∀ text, .put uri text ∉ before := by
  have hnone : DocumentStore.lastText? (before.filterMap Operation.put?) uri = none ↔
      ∀ text, .put uri text ∉ before := by
    simp only [DocumentStore.lastText?_eq_none_iff, mem_puts]
  rw [answer_get, ← hnone]
  cases DocumentStore.lastText? (before.filterMap Operation.put?) uri <;> simp

private theorem answer_items : answer roots before .items =
    .documents (DocumentStore.latest (before.filterMap Operation.put?)) := by
  rw [answer, perform, store_after, DocumentStore.items_replay]

private theorem answer_uris : answer roots before .uris =
    .uris ((DocumentStore.latest (before.filterMap Operation.put?)).map Prod.fst) := by
  rw [answer, perform, store_after, DocumentStore.uris_replay, DocumentStore.uris_latest]

private theorem answer_size : answer roots before .size =
    .count (DocumentStore.latest (before.filterMap Operation.put?)).length := by
  rw [answer, perform, store_after, ← DocumentStore.items_replay roots]
  rfl

theorem answer_contains_iff (uri : Text) : answer roots before (.contains uri) = .flag true ↔
    uri ∈ (DocumentStore.latest (before.filterMap Operation.put?)).map Prod.fst := by
  rw [answer, perform, store_after, Answer.flag.injEq, DocumentStore.contains_iff,
    DocumentStore.uris_replay, DocumentStore.uris_latest]

end Answers

theorem answer_drain (roots : List Text) (earlier : List Operation) {since : List Operation}
    {name : Text} (h : .snapshot name ∉ since) :
    (.drain name ∉ since → answer roots (earlier ++ .snapshot name :: since) (.drain name) =
      answer roots earlier .items) ∧
    (.drain name ∈ since → answer roots (earlier ++ .snapshot name :: since) (.drain name) =
      .documents []) := by
  have hafter (d : Desk) : d.after (earlier ++ .snapshot name :: since) =
      ((d.after earlier).hold name (.take (d.after earlier).store)).after since :=
    after_append d earlier (.snapshot name :: since)
  obtain ⟨hkept, hempty⟩ :=
    held_after h ((after { store := { roots } } earlier).hold name (.take _))
  rw [answer, perform, hafter]
  constructor
  · intro hdrain
    rw [hkept hdrain, held_hold_self]
    rfl
  · intro hdrain
    rw [hempty hdrain]
    rfl

/-- The store gives for each document the text of its last put, and fails if there was no put. It
lists the documents in the order of their first puts, each once. A snapshot gives, when it is
drained for the first time, what the store held when it was taken, and after that nothing. -/
theorem snapshots_are_isolated (roots : List Text) :
    (∀ before : List Operation,
      let puts := before.filterMap Operation.put?
      let documents := DocumentStore.latest puts
      (∀ uri text, answer roots before (.get uri) = .text (.ok text) ↔
        DocumentStore.lastText? puts uri = some text) ∧
      (∀ uri, answer roots before (.get uri) = .text (.error (.noDocument uri)) ↔
        ∀ text, .put uri text ∉ before) ∧
      answer roots before .items = .documents documents ∧
      answer roots before .uris = .uris (documents.map Prod.fst) ∧
      answer roots before .size = .count documents.length ∧
      (∀ uri, answer roots before (.contains uri) = .flag true ↔ uri ∈ documents.map Prod.fst) ∧
      documents.map Prod.fst = (puts.map Prod.fst).eraseDups ∧
      (documents.map Prod.fst).Nodup ∧
      ∀ document ∈ documents, DocumentStore.lastText? puts document.1 = some document.2) ∧
    ∀ (earlier since : List Operation) (name : Text), .snapshot name ∉ since →
      (.drain name ∉ since → answer roots (earlier ++ .snapshot name :: since) (.drain name) =
        answer roots earlier .items) ∧
      (.drain name ∈ since → answer roots (earlier ++ .snapshot name :: since) (.drain name) =
        .documents []) := by
  refine ⟨fun before => ?_, fun earlier since name h => answer_drain roots earlier h⟩
  intro puts documents
  refine ⟨fun uri text => ?_, answer_get_eq_error_iff roots before, answer_items roots before,
    answer_uris roots before, answer_size roots before, answer_contains_iff roots before,
    DocumentStore.uris_latest puts, ?_, fun _ => DocumentStore.lastText?_of_mem_latest⟩
  · rw [answer_get]
    cases DocumentStore.lastText? puts uri <;> simp
  · rw [DocumentStore.uris_latest]
    exact Text.nodup_eraseDups _

/-- A document is opened, a snapshot taken, and the document overwritten behind another one. -/
theorem snapshots_are_isolated_overwritten :
    let earlier : List Operation := [.put "b" "old"]
    let since : List Operation := [.put "a" "x", .snapshot "t", .put "b" "new", .drain "t"]
    answer [] (earlier ++ .snapshot "s" :: since) (.drain "s") = .documents [⟨"b", "old"⟩] ∧
      answer [] (earlier ++ .snapshot "s" :: since) .items =
        .documents [⟨"b", "new"⟩, ⟨"a", "x"⟩] ∧
      answer [] (earlier ++ .snapshot "s" :: (since ++ [.drain "s"])) (.drain "s") =
        .documents [] := by
  intro earlier since
  obtain ⟨hanswers, hdrain⟩ := snapshots_are_isolated []
  have hold : DocumentStore.latest (earlier.filterMap Operation.put?) = [⟨"b", "old"⟩] := by
    decide +kernel
  have hnew : DocumentStore.latest ((earlier ++ .snapshot "s" :: since).filterMap Operation.put?) =
      [⟨"b", "new"⟩, ⟨"a", "x"⟩] := by decide +kernel
  have hfirst := (hdrain earlier since "s" (by decide +kernel)).1 (by decide +kernel)
  have hsecond := (hdrain earlier (since ++ [.drain "s"]) "s" (by decide +kernel)).2
    (by decide +kernel)
  refine ⟨?_, ?_, hsecond⟩
  · rw [hfirst, (hanswers earlier).2.2.1, hold]
  · rw [(hanswers _).2.2.1, hnew]

end Desk

end RubyLanguageServer
