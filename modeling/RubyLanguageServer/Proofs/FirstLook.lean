import RubyLanguageServer.Proofs.Replay
import RubyLanguageServer.Proofs.Scanning
import RubyLanguageServer.Server.Analyzers
/-!
# The disk is looked at once

The first completion of a constant lists the workspace and reads every file in it that is not open.
All of this is remembered, and an open document stays open, so no later completion depends on the
disk. What a file holds that was open at that time is never seen.
-/
namespace RubyLanguageServer

namespace Workspace

theorem list_of_some {w : Workspace} {files : List Text} (h : w.files = some files) (d : Disk) :
    w.list d false = (files, w, []) := by
  simp only [list, h]

theorem list_of_none {w : Workspace} (h : w.files = none) (d : Disk) :
    w.list d false = (Scan.files d w.roots, { w with files := some (Scan.files d w.roots) },
      [.filesFound (Scan.files d w.roots).length]) := by
  simp only [list, h]

private theorem list_agree {paths : List Text} {d d' : Disk} (h : Disk.Agree paths d d')
    (w : Workspace) : w.list d false = w.list d' false := by
  cases hfiles : w.files with
  | some files => rw [list_of_some hfiles, list_of_some hfiles]
  | none => rw [list_of_none hfiles, list_of_none hfiles, h.files_eq]

theorem list_eq (w : Workspace) (d : Disk) :
    (w.list d false).2.1 = { w with files := some (w.list d false).1 } := by
  cases hfiles : w.files with
  | some files => rw [list_of_some hfiles, ← hfiles]
  | none => rw [list_of_none hfiles]

end Workspace

namespace ConstantIndex

section Names

variable {note : List Event → Disk → Disk}

private theorem readNames_congr {d d' : Disk} {path : Text} (h : d.read path = d'.read path) :
    readNames d path = readNames d' path := by
  rw [readNames, readNames, h]

/-- Files that read alike, also behind each report, have the same constants. -/
theorem fileNames_agree {paths : List Text}
    (hnote : ∀ log {d d'}, Disk.Agree paths d d' → Disk.Agree paths (note log d) (note log d'))
    {d d' : Disk} (h : Disk.Agree paths d d') {rest : List Text} (hrest : rest ⊆ paths)
    (known : Entries (List Text)) :
    fileNames note d rest known = fileNames note d' rest known := by
  induction rest generalizing d d' known with
  | nil => rfl
  | cons path rest ih =>
    obtain ⟨hpath, hrest⟩ := List.cons_subset.mp hrest
    have hread := readNames_congr (h.read_eq path hpath)
    rw [fileNames, fileNames]
    cases hfind : Entries.find? path known with
    | some names => simp only [ih (hnote [] h) hrest]
    | none => simp only [hread, ih (hnote (readNames d' path).2 h) hrest]

private theorem fileNames_of_known {paths : List Text} {known : Entries (List Text)}
    (h : ∀ path ∈ paths, (Entries.find? path known).isSome = true) (d : Disk) :
    fileNames note d paths known =
      (paths.flatMap fun path => (Entries.find? path known).getD [], known, []) := by
  induction paths generalizing d with
  | nil => rfl
  | cons path paths ih =>
    obtain ⟨hpath, hpaths⟩ := List.forall_mem_cons.mp h
    obtain ⟨names, hfind⟩ := Option.isSome_iff_exists.mp hpath
    rw [fileNames]
    simp only [hfind, ih hpaths, List.flatMap_cons, Option.getD_some, List.append_nil]

theorem known_fileNames (d : Disk) (paths : List Text) (known : Entries (List Text)) :
    ∀ path, path ∈ paths ∨ (Entries.find? path known).isSome = true →
      (Entries.find? path (fileNames note d paths known).2.1).isSome = true := by
  induction paths generalizing d known with
  | nil =>
    intro path h
    exact h.resolve_left List.not_mem_nil
  | cons first paths ih =>
    intro path h
    rw [fileNames]
    cases hfind : Entries.find? first known with
    | some names =>
      apply ih
      rcases h with h | h
      · rcases List.mem_cons.mp h with rfl | h
        · exact .inr (hfind ▸ rfl)
        · exact .inl h
      · exact .inr h
    | none =>
      apply ih
      by_cases hfirst : path = first
      · right
        rw [hfirst, Entries.find?_insert_self]
        rfl
      · rcases h with h | h
        · exact .inl ((List.mem_cons.mp h).resolve_left hfirst)
        · right
          rw [Entries.find?_insert_of_ne (Ne.symm hfirst)]
          exact h

end Names

/-- The files whose contents count: those of the workspace that are not open. -/
def visible (disk : Disk) (store : DocumentStore) (index : ConstantIndex) : List Text :=
  match index.workspace with
  | none => []
  | some workspace =>
    (workspace.list disk false).1.filter (!(openPaths store).contains ·)

private theorem names_agree (m : Machine) {d d' : Disk} {store : DocumentStore}
    {index : ConstantIndex} (h : Disk.Agree (visible d store index) d d') :
    names m.note d store index = names m.note d' store index := by
  rw [names, names]
  cases hworkspace : index.workspace with
  | none => rfl
  | some w =>
    simp only [visible, hworkspace] at h ⊢
    have hlist := Workspace.list_agree h w
    have hnames := fileNames_agree (fun log _ _ hagree => hagree.note m log)
      (h.note m (w.list d false).2.2) (List.Subset.refl _) index.known
    rw [hnames, hlist]

/-- Every file of the workspace is open or known. -/
def Settled (index : ConstantIndex) (store : DocumentStore) : Prop :=
  ∀ w, index.workspace = some w → ∃ files, w.files = some files ∧
    ∀ path ∈ files, path ∈ openPaths store ∨ (Entries.find? path index.known).isSome = true

private theorem settled_names (note : List Event → Disk → Disk) (d : Disk) (store : DocumentStore)
    (index : ConstantIndex) : (names note d store index).2.1.Settled store := by
  intro w hw
  rw [names] at hw ⊢
  cases hworkspace : index.workspace with
  | none =>
    simp only [hworkspace] at hw
    cases hw
  | some v =>
    simp only [hworkspace] at hw ⊢
    cases hw
    refine ⟨_, congrArg Workspace.files (v.list_eq d), ?_⟩
    intro path hpath
    by_cases hopen : path ∈ openPaths store
    · exact .inl hopen
    · right
      apply known_fileNames
      left
      rw [List.mem_filter]
      simp [hpath, hopen]

/-- Once all files are known, the disk does not count, and the index stays as it is. -/
theorem names_of_settled {index : ConstantIndex} {store : DocumentStore}
    (h : index.Settled store) (note : List Event → Disk → Disk) (d d' : Disk) :
    names note d store index = names note d' store index ∧
      (names note d store index).2.1 = index := by
  rw [names, names]
  cases hworkspace : index.workspace with
  | none => exact ⟨rfl, rfl⟩
  | some w =>
    obtain ⟨files, hfiles, hall⟩ := h w hworkspace
    have hknown : ∀ path ∈ files.filter (!(openPaths store).contains ·),
        (Entries.find? path index.known).isSome = true := by
      intro path hpath
      rw [List.mem_filter] at hpath
      apply (hall path hpath.1).resolve_left
      simpa using hpath.2
    simp only [Workspace.list_of_some hfiles, fileNames_of_known hknown, true_and]
    rw [← hworkspace]

private theorem openPaths_put (store : DocumentStore) (uri text : Text) :
    openPaths store ⊆ openPaths (store.put uri text) := by
  have huris : store.uris ⊆ (store.put uri text).uris := by
    rw [DocumentStore.uris_put]
    split
    · exact List.Subset.refl _
    · exact List.subset_append_left _ _
  intro path hpath
  obtain ⟨u, hu, hpath⟩ := List.mem_filterMap.mp hpath
  exact List.mem_filterMap.mpr ⟨u, huris hu, hpath⟩

private theorem Settled.put {index : ConstantIndex} {store : DocumentStore}
    (h : index.Settled store) (uri text : Text) : index.Settled (store.put uri text) := by
  intro w hw
  obtain ⟨files, hfiles, hall⟩ := h w hw
  refine ⟨files, hfiles, fun path hpath => ?_⟩
  exact (hall path hpath).imp_left fun hopen => openPaths_put store uri text hopen

end ConstantIndex

/-- What can happen while constants are completed: a document is stored, the disk becomes another
one, or a completion is asked for. -/
inductive Act where
  | put (uri text : Text)
  | edit (disk : Disk)
  | complete (query : Query)

def Act.isEdit : Act → Bool
  | .edit _ => true
  | _ => false

/-- The documents, and the world in which constants are completed. -/
structure Stage where
  store : DocumentStore
  backend : Backend

namespace Stage

def disk (s : Stage) : Disk := s.backend.machine.disk

def onDisk (s : Stage) (disk : Disk) : Stage :=
  { s with backend.machine.disk := disk }

def withIndex (s : Stage) (index : ConstantIndex) : Stage := { s with backend.index := index }

/-- One act: what is answered, if anything is asked, and the stage afterwards. -/
def act (s : Stage) : Act → Option (Except Failure (List Candidate)) × Stage
  | .put uri text => (none, { s with store := s.store.put uri text })
  | .edit disk => (none, s.onDisk disk)
  | .complete query =>
    let (outcome, bench) :=
      (Backend.constantProvider.complete query s.store).run.run { world := s.backend }
    (some outcome, { s with backend := bench.world })

/-- What is answered to all completions in a history. -/
def answers : List Act → Stage → List (Except Failure (List Candidate))
  | [], _ => []
  | a :: history, s => (s.act a).1.toList ++ answers history (s.act a).2

def looks (s : Stage) : Act → Bool
  | .complete query =>
    match s.store.get? query.uri with
    | some text => Constant.prefixAt text query.line query.character ≠ []
    | none => false
  | _ => false

/-- The stage at the first completion of a constant. -/
def firstLook? : List Act → Stage → Option Stage
  | [], _ => none
  | a :: history, s => if s.looks a then some s else firstLook? history (s.act a).2

/-- The constants of the project as they are found on a disk, and the index afterwards. -/
def found (s : Stage) (disk : Disk) : List Text × ConstantIndex × List Event :=
  s.backend.index.names s.backend.machine.note disk s.store

def visible (s : Stage) : List Text := s.backend.index.visible s.disk s.store

theorem act_of_text {s : Stage} {query : Query} {text : Text}
    (htext : s.store.get? query.uri = some text) : s.act (.complete query) =
      if Constant.prefixAt text query.line query.character = [] then (some (.ok []), s)
      else (some (.ok (ConstantIndex.candidates
        (Constant.prefixAt text query.line query.character) (s.found s.disk).1)),
          s.withIndex (s.found s.disk).2.1) := by
  simp only [act, Backend.constantProvider, Backend.completeConstants, Probe.text, htext,
    pure_bind]
  cases Constant.prefixAt text query.line query.character <;> rfl

theorem act_of_not_looks {s : Stage} {query : Query} (h : s.looks (.complete query) = false) :
    ∃ outcome, ∀ d, (s.onDisk d).act (.complete query) = (some outcome, s.onDisk d) := by
  rw [looks] at h
  cases htext : s.store.get? query.uri with
  | none =>
    refine ⟨.error (.noDocument query.uri), fun d => ?_⟩
    simp only [act, Backend.constantProvider, Backend.completeConstants, Probe.text, onDisk, htext]
    rfl
  | some text =>
    simp only [htext, decide_eq_false_iff_not, not_not] at h
    exact ⟨.ok [], fun d => (act_of_text (s := s.onDisk d) htext).trans (if_pos h)⟩

theorem act_of_looks {s : Stage} {query : Query} (h : s.looks (.complete query) = true) :
    ∃ path, ∀ d, (s.onDisk d).act (.complete query) =
      (some (.ok (ConstantIndex.candidates path (s.found d).1)),
        (s.onDisk d).withIndex (s.found d).2.1) := by
  rw [looks] at h
  cases htext : s.store.get? query.uri with
  | none =>
    rw [htext] at h
    cases h
  | some text =>
    simp only [htext, decide_eq_true_eq] at h
    exact ⟨_, fun d => (act_of_text (s := s.onDisk d) htext).trans (if_neg h)⟩

private theorem looks_onDisk (s : Stage) (d : Disk) (a : Act) : (s.onDisk d).looks a = s.looks a :=
    by
  cases a <;> rfl

def withoutEdits (history : List Act) : List Act := history.filter (!·.isEdit)

theorem answers_of_settled {s : Stage} (h : s.backend.index.Settled s.store)
    (history : List Act) (d : Disk) :
    answers history s = answers (withoutEdits history) (s.onDisk d) := by
  induction history generalizing s with
  | nil => rfl
  | cons a history ih =>
    cases a with
    | edit disk => exact ih (s := s.onDisk disk) h
    | put uri text => exact ih (s := { s with store := s.store.put uri text }) (h.put uri text)
    | complete query =>
      show ((s.onDisk s.disk).act _).1.toList ++ answers history ((s.onDisk s.disk).act _).2 =
        ((s.onDisk d).act _).1.toList ++ answers (withoutEdits history) ((s.onDisk d).act _).2
      cases hlooks : s.looks (.complete query) with
      | false =>
        obtain ⟨outcome, hact⟩ := act_of_not_looks hlooks
        rw [hact, hact]
        exact congrArg (outcome :: ·) (ih h)
      | true =>
        obtain ⟨path, hact⟩ := act_of_looks hlooks
        obtain ⟨hsame, hindex⟩ :=
          ConstantIndex.names_of_settled h s.backend.machine.note s.disk d
        have hfound : s.found s.disk = s.found d := hsame
        have hkept : (s.found d).2.1 = s.backend.index := hfound ▸ hindex
        rw [hact, hact, hfound, hkept]
        exact congrArg (Except.ok _ :: ·) (ih h)

/-- What is answered depends on the disk at the first completion of a constant only, and there on
the files that are not open. -/
theorem answers_eq {s : Stage} {history : List Act} {d : Disk}
    (h : ∀ t, firstLook? history s = some t → Disk.Agree t.visible t.disk d) :
    answers history s = answers (withoutEdits history) (s.onDisk d) := by
  induction history generalizing s with
  | nil => rfl
  | cons a history ih =>
    cases a with
    | edit disk => exact ih (s := s.onDisk disk) h
    | put uri text => exact ih (s := { s with store := s.store.put uri text }) h
    | complete query =>
      show ((s.onDisk s.disk).act _).1.toList ++ answers history ((s.onDisk s.disk).act _).2 =
        ((s.onDisk d).act _).1.toList ++ answers (withoutEdits history) ((s.onDisk d).act _).2
      cases hlooks : s.looks (.complete query) with
      | false =>
        obtain ⟨outcome, hact⟩ := act_of_not_looks hlooks
        have hstays : (s.act (.complete query)).2 = s := congrArg Prod.snd (hact s.disk)
        rw [hact, hact]
        refine congrArg (outcome :: ·) (ih fun t ht => h t ?_)
        rw [firstLook?, hlooks, hstays]
        exact ht
      | true =>
        obtain ⟨path, hact⟩ := act_of_looks hlooks
        have hagree : Disk.Agree s.visible s.disk d := by
          apply h
          rw [firstLook?, hlooks]
          rfl
        have hfound : s.found s.disk = s.found d :=
          ConstantIndex.names_agree s.backend.machine hagree
        have hsettled := ConstantIndex.settled_names s.backend.machine.note s.disk s.store
          s.backend.index
        rw [hact, hact, ← hfound]
        exact congrArg (Except.ok _ :: ·)
          (answers_of_settled (s := s.withIndex (s.found s.disk).2.1) hsettled history d)

theorem firstLook?_onDisk (history : List Act) (s : Stage) (d : Disk) :
    firstLook? (withoutEdits history) (s.onDisk d) =
      (firstLook? history s).map (·.onDisk d) := by
  induction history generalizing s with
  | nil => rfl
  | cons a history ih =>
    cases a with
    | edit disk => exact ih (s.onDisk disk)
    | put uri text => exact ih { s with store := s.store.put uri text }
    | complete query =>
      show firstLook? (.complete query :: withoutEdits history) _ = _
      rw [firstLook?, firstLook?, looks_onDisk]
      cases hlooks : s.looks (.complete query) with
      | true => rfl
      | false =>
        obtain ⟨outcome, hact⟩ := act_of_not_looks hlooks
        have hstays : (s.act (.complete query)).2 = s := congrArg Prod.snd (hact s.disk)
        rw [hact, hstays]
        exact ih s

/-- Two histories with the same puts and completions have the same answers if the disk is the same
at the first completion of a constant, or differs there only in what files hold that are open,
whatever happens to it before and afterwards. -/
theorem disk_is_looked_at_once {s : Stage} {history other : List Act}
    (hacts : withoutEdits history = withoutEdits other)
    (hdisk : ∀ t t', firstLook? history s = some t → firstLook? other s = some t' →
      Disk.Agree t.visible t.disk t'.disk) :
    answers history s = answers other s := by
  cases hother : firstLook? other s with
  | none =>
    have hnone : firstLook? history s = none := by
      have hmapped := firstLook?_onDisk history s s.disk
      rw [hacts, firstLook?_onDisk, hother] at hmapped
      exact Option.map_eq_none_iff.mp hmapped.symm
    have hhistory : answers history s = answers (withoutEdits history) (s.onDisk s.disk) := by
      apply answers_eq
      simp [hnone]
    have hsame : answers other s = answers (withoutEdits other) (s.onDisk s.disk) := by
      apply answers_eq
      simp [hother]
    rw [hhistory, hsame, hacts]
  | some t' =>
    have hhistory : answers history s = answers (withoutEdits history) (s.onDisk t'.disk) :=
      answers_eq fun t ht => hdisk t t' ht hother
    have hsame : answers other s = answers (withoutEdits other) (s.onDisk t'.disk) := by
      apply answers_eq
      intro t ht
      rw [hother] at ht
      cases ht
      exact .refl _ _
    rw [hhistory, hsame, hacts]

/-- A disk with the Ruby files `a.rb`, of a given content, and `b.rb`, which holds `B = 1`. -/
def twoFiles (content : Bytes) : Disk :=
  { root := [("w", .directory [("a.rb", .file content),
      ("b.rb", .file [0x42, 0x20, 0x3d, 0x20, 0x31])])] }

/-- A workspace on such a disk that has been neither listed nor read. -/
def unread (content : Bytes) (store : DocumentStore) : Stage where
  store := store
  backend := {
    machine := { disk := twoFiles content }
    index := { workspace := some { roots := [("/w" : Text)] } } }

def definition : Bytes := [0x42, 0x32, 0x3d, 0x31]

/-- The file `a.rb` is opened, a constant is completed in it, all files are removed, and a constant
is completed again. -/
def removing : List Act := [
  .put "file:///w/a.rb" "B", .complete ⟨"file:///w/a.rb", 0, 1⟩, .edit {},
  .complete ⟨"file:///w/a.rb", 0, 1⟩]

/-- The same, but `a.rb` defines a constant from the beginning, and no file is removed. -/
def rewriting : List Act := [
  .edit (twoFiles definition), .put "file:///w/a.rb" "B", .complete ⟨"file:///w/a.rb", 0, 1⟩,
  .complete ⟨"file:///w/a.rb", 0, 1⟩]

def opened : DocumentStore := DocumentStore.put {} "file:///w/a.rb" "B"

theorem looks_opened (content : Bytes) :
    (unread content opened).looks (.complete ⟨"file:///w/a.rb", 0, 1⟩) = true := by
  have hpath : Constant.prefixAt "B" 0 1 ≠ [] := by decide +kernel
  exact decide_eq_true hpath

private theorem firstLook?_removing :
    firstLook? removing (unread [] {}) = some (unread [] opened) :=
  if_pos (looks_opened [])

private theorem firstLook?_rewriting :
    firstLook? rewriting (unread [] {}) = some (unread definition opened) :=
  if_pos (looks_opened definition)

theorem find_twoFiles (content : Bytes) : (twoFiles content).find "/w" =
    .ok (.directory [("a.rb", .file content), ("b.rb", .file [0x42, 0x20, 0x3d, 0x20, 0x31])]) :=
  Disk.find_of_plain [("w" : Text)] (by decide) (by decide) (by decide) (by decide) rfl
    nofun

theorem visible_opened (content : Bytes) :
    (unread content opened).visible = [("/w/b.rb" : Text)] := by
  have hfiles : Scan.files (twoFiles content) [("/w" : Text)] =
      [("/w/a.rb" : Text), "/w/b.rb"] := by
    rw [Scan.files, List.flatMap_singleton, Scan.rootFiles, find_twoFiles]
    exact Text.sortDistinct_eq (by decide) fun t => Iff.rfl
  change (Scan.files (twoFiles content) [("/w" : Text)]).filter _ = _
  rw [hfiles]
  cbv

theorem read_twoFiles (content : Bytes) :
    (twoFiles content).read "/w/a.rb" = .ok content ∧
      (twoFiles content).read "/w/b.rb" = .ok [0x42, 0x20, 0x3d, 0x20, 0x31] := by
  have ha : (twoFiles content).find "/w/a.rb" = .ok (.file content) :=
    Disk.find_of_plain [("w" : Text), "a.rb"] (by decide) (by decide) (by decide)
      (by decide) rfl nofun
  have hb : (twoFiles content).find "/w/b.rb" = .ok (.file [0x42, 0x20, 0x3d, 0x20, 0x31]) :=
    Disk.find_of_plain [("w" : Text), "b.rb"] (by decide) (by decide) (by decide)
      (by decide) rfl nofun
  rw [Disk.read, ha, Disk.read, hb]
  exact ⟨rfl, rfl⟩

private theorem agree_twoFiles (content content' : Bytes) :
    Disk.Agree [("/w/b.rb" : Text)] (twoFiles content) (twoFiles content') := by
  refine ⟨rfl, List.forall_mem_singleton.mpr ?_⟩
  rw [(read_twoFiles content).2, (read_twoFiles content').2]

/-- The open file differs on the two disks, the other one is read, and later all files are gone. -/
theorem disk_is_looked_at_once_removing :
    (∃ t t', firstLook? removing (unread [] {}) = some t ∧
      firstLook? rewriting (unread [] {}) = some t' ∧
      t.disk.read "/w/a.rb" = .ok [] ∧ t'.disk.read "/w/a.rb" = .ok definition ∧
      t.visible = [("/w/b.rb" : Text)]) ∧
    answers removing (unread [] {}) = answers rewriting (unread [] {}) := by
  constructor
  · exact ⟨_, _, firstLook?_removing, firstLook?_rewriting, (read_twoFiles []).1,
      (read_twoFiles definition).1, visible_opened []⟩
  · have hacts : withoutEdits removing = withoutEdits rewriting := rfl
    apply disk_is_looked_at_once hacts
    intro t t' ht ht'
    rw [firstLook?_removing] at ht
    rw [firstLook?_rewriting] at ht'
    cases ht
    cases ht'
    rw [visible_opened]
    exact agree_twoFiles [] definition

end Stage

end RubyLanguageServer
