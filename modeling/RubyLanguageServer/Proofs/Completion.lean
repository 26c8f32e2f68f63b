import RubyLanguageServer.Proofs.FileUris
import RubyLanguageServer.Proofs.FirstLook
import RubyLanguageServer.Proofs.Scanning
/-!
# The constants that are offered

A completion offers the constants that begin with the path before the position: those of the
documents in the order of the store, and then those of the Ruby files for which no document stands,
in the order of their paths. The constants of a file are those that it had when they were first
asked for.
-/
namespace RubyLanguageServer

namespace Text

private theorem isSome_after? (t start : Text) : (t.after? start).isSome = start.isPrefixOf t := by
  induction start generalizing t with
  | nil => cases t <;> rfl
  | cons p start ih =>
    cases t with
    | nil => rfl
    | cons c t =>
      rw [after?, List.isPrefixOf]
      by_cases hc : c = p
      · simp [hc, ih]
      · simp [hc, Ne.symm hc]

end Text

namespace ConstantIndex

private theorem candidates_eq (path : Text) (names : List Text) : candidates path names =
    (names.filter (path.isPrefixOf ·)).eraseDups.map fun name => ⟨name, none, .className⟩ := by
  simp only [candidates, Text.isSome_after?]

/-- What is reported when the constants of a file are asked for. -/
def reports (disk : Disk) (known : Entries (List Text)) (path : Text) : List Event :=
  if (Entries.find? path known).isSome then [] else (readNames disk path).2

/-- The constants that are read from one of several files, behind the reports of those before it. -/
def namesRead (note : List Event → Disk → Disk) (disk : Disk) (paths : List Text)
    (known : Entries (List Text)) (path : Text) : List Text :=
  (readNames (note ((paths.takeWhile (· ≠ path)).flatMap (reports disk known)) disk) path).1

/-- The constants of one of several files: those that are known, or else those that are read. -/
def namesOf (note : List Event → Disk → Disk) (disk : Disk) (paths : List Text)
    (known : Entries (List Text)) (path : Text) : List Text :=
  (Entries.find? path known).getD (namesRead note disk paths known path)

theorem readNames_of_skeleton_eq {d d' : Disk} (h : d.skeleton = d'.skeleton) (path : Text) :
    (readNames d path).2 = (readNames d' path).2 := by
  have hlocate := Disk.locate_of_skeleton_eq h path
  cases hplace : d.locate path with
  | error e =>
    rw [readNames, readNames, Disk.read_of_locate_error hplace,
      Disk.read_of_locate_error (hlocate.symm.trans hplace)]
  | ok place =>
    have hentry := Disk.entryAt_of_skeleton_eq h place
    rw [readNames, readNames, Disk.read_of_locate hplace,
      Disk.read_of_locate (hlocate.symm.trans hplace)]
    by_cases hfile : ∃ content, Disk.entryAt place d.root = some (.file content)
    · obtain ⟨content, hcontent⟩ := hfile
      obtain ⟨content', hcontent'⟩ := Disk.exists_file_of_skeleton_eq hentry hcontent
      rw [hcontent, hcontent', Disk.readEntry, Disk.readEntry]
    · rw [Disk.readEntry_of_skeleton_eq hentry fun content hcontent => hfile ⟨content, hcontent⟩]

section Files

variable (m : Machine) (d : Disk) {first : Text} {rest : List Text} (known : Entries (List Text))

private theorem namesOf_first (paths : List Text) :
    namesOf m.note d (first :: paths) known first =
      (Entries.find? first known).getD (readNames d first).1 := by
  simp [namesOf, namesRead, m.note_nil]

/-- A known file and one that is read are alike for the files behind them. -/
theorem fileNames_cons : fileNames m.note d (first :: rest) known =
    let names := namesOf m.note d (first :: rest) known first
    let others := fileNames m.note (m.note (reports d known first) d) rest
      (Entries.insert first names known)
    (names ++ others.1, others.2.1, reports d known first ++ others.2.2) := by
  rw [namesOf_first, fileNames, reports]
  cases hfind : Entries.find? first known with
  | none => rfl
  | some names =>
    simp only [Option.getD_some, Entries.insert_of_find? hfind]
    rfl

private theorem namesOf_cons (hfirst : first ∉ rest) {path : Text} (hpath : path ≠ first)
    (names : List Text) :
    namesOf m.note (m.note (reports d known first) d) rest (Entries.insert first names known) path =
      namesOf m.note d (first :: rest) known path := by
  have hreports : (rest.takeWhile (· ≠ path)).flatMap
      (reports (m.note (reports d known first) d) (Entries.insert first names known)) =
        (rest.takeWhile (· ≠ path)).flatMap (reports d known) := by
    apply List.flatMap_congr
    intro other hother
    have hne : first ≠ other := by
      intro heq
      exact hfirst (heq ▸ (List.takeWhile_prefix _).subset hother)
    rw [reports, Entries.find?_insert_of_ne hne, readNames_of_skeleton_eq (m.skeleton_note _ d)]
    rfl
  rw [namesOf, namesOf, namesRead, namesRead, Entries.find?_insert_of_ne (Ne.symm hpath), hreports,
    m.note_note, List.takeWhile_cons_of_pos (by simpa using Ne.symm hpath), List.flatMap_cons]

/-- The constants of files, each of which is asked for once, and what is known of them then. -/
theorem fileNames_eq {paths : List Text} (hpaths : paths.Nodup) :
    (fileNames m.note d paths known).1 = paths.flatMap (namesOf m.note d paths known) ∧
    ∀ path, Entries.find? path (fileNames m.note d paths known).2.1 =
      if path ∈ paths then some (namesOf m.note d paths known path)
      else Entries.find? path known := by
  induction paths generalizing d known with
  | nil => exact ⟨rfl, fun path => rfl⟩
  | cons first rest ih =>
    obtain ⟨hfirst, hrest⟩ := List.nodup_cons.mp hpaths
    obtain ⟨hnames, hknown⟩ := ih (m.note (reports d known first) d)
      (Entries.insert first (namesOf m.note d (first :: rest) known first) known) hrest
    rw [fileNames_cons]
    constructor
    · simp only [List.flatMap_cons, hnames]
      congr 1
      apply List.flatMap_congr
      intro path hpath
      exact namesOf_cons m d known hfirst (fun heq => hfirst (heq ▸ hpath)) _
    · intro path
      simp only [hknown]
      by_cases hpath : path = first
      · subst hpath
        rw [if_neg hfirst, if_pos List.mem_cons_self, Entries.find?_insert_self]
      · rw [namesOf_cons m d known hfirst hpath, Entries.find?_insert_of_ne (Ne.symm hpath)]
        simp only [List.mem_cons, hpath, false_or]

end Files

private theorem mem_openPaths {store : DocumentStore} {path : Text} :
    path ∈ openPaths store ↔ ∃ uri ∈ store.uris, Uri.toPath uri = .ok path := by
  rw [openPaths, List.mem_filterMap]
  refine exists_congr fun uri => and_congr_right fun _ => ?_
  cases Uri.toPath uri <;> simp [Except.toOption]

end ConstantIndex

namespace Stage

def after (s : Stage) (history : List Act) : Stage := history.foldl (fun s a => (s.act a).2) s

/-- The constants of the files that have been read. -/
def known (s : Stage) : Entries (List Text) := s.backend.index.known

/-- The Ruby files of the workspace, and what is reported of them. -/
def listing (s : Stage) : List Text × List Event :=
  match s.backend.index.workspace with
  | none => ([], [])
  | some w => ((w.list s.disk false).1, (w.list s.disk false).2.2)

def rubyFiles (s : Stage) : List Text := s.listing.1

/-- A document stands for a file if its URI has the path of the file. -/
def Shadowed (s : Stage) (path : Text) : Prop := ∃ uri ∈ s.store.uris, Uri.toPath uri = .ok path

instance (s : Stage) : DecidablePred s.Shadowed :=
  fun _ => decidable_of_iff _ ConstantIndex.mem_openPaths

def unshadowed (s : Stage) : List Text := s.rubyFiles.filter fun path => ¬ s.Shadowed path

/-- The constants that a file has now. They are read behind the reports of the listing and of the
files before it, which counts if the file is the log. -/
def readNow (s : Stage) (path : Text) : List Text :=
  ConstantIndex.namesRead s.backend.machine.note (s.backend.machine.note s.listing.2 s.disk)
    s.unshadowed s.known path

/-- The constants of a file: those that it had when it was read, or else those that it has now. -/
def constantsOf (s : Stage) (path : Text) : List Text :=
  (Entries.find? path s.known).getD (s.readNow path)

/-- The constants of the documents and of the files. -/
def constants (s : Stage) : List Text :=
  s.store.items.flatMap (fun item => Constant.namesIn item.2) ++ s.unshadowed.flatMap s.constantsOf

/-- Whether the constants of a file are asked for. -/
def asks (s : Stage) (path : Text) (a : Act) : Bool := s.looks a && decide (path ∈ s.unshadowed)

/-- The stage at which the constants of a file are first asked for. -/
def firstAsked? (path : Text) : List Act → Stage → Option Stage
  | [], _ => none
  | a :: history, s => if s.asks path a then some s else firstAsked? path history (s.act a).2

/-- The stage at which the files have been listed: at the first completion of a constant, and now if
there has been none. -/
def listedAt (s : Stage) (history : List Act) : Stage :=
  (firstLook? history s).getD (s.after history)

/-- Nothing has been listed and no file has been read, on a disk with plain names. -/
structure Fresh (s : Stage) : Prop where
  known_eq : s.known = []
  created : ∀ w, s.backend.index.workspace = some w →
    ∃ disk roots, Workspace.create disk roots = .ok w
  named : s.disk.Named

private theorem after_cons (s : Stage) (a : Act) (history : List Act) :
    s.after (a :: history) = (s.act a).2.after history := rfl

private theorem after_concat (s : Stage) (history : List Act) (a : Act) :
    s.after (history ++ [a]) = ((s.after history).act a).2 := by
  rw [after, List.foldl_append]
  rfl

private theorem act_complete (s : Stage) (query : Query) : (s.act (.complete query)).2 =
    if s.looks (.complete query) then s.withIndex (s.found s.disk).2.1 else s := by
  cases hlooks : s.looks (.complete query) with
  | true =>
    obtain ⟨path, hact⟩ := act_of_looks hlooks
    exact congrArg Prod.snd (hact s.disk)
  | false =>
    obtain ⟨outcome, hact⟩ := act_of_not_looks hlooks
    exact congrArg Prod.snd (hact s.disk)

theorem index_act (s : Stage) (a : Act) : (s.act a).2.backend.index =
    if s.looks a then (s.found s.disk).2.1 else s.backend.index := by
  cases a with
  | complete query =>
    rw [act_complete]
    split <;> rfl
  | _ => rfl

private theorem named_act {s : Stage} (hdisk : s.disk.Named) {a : Act}
    (hedit : ∀ d, a = .edit d → d.Named) : (s.act a).2.disk.Named := by
  cases a with
  | put uri text => exact hdisk
  | edit d => exact hedit d rfl
  | complete query =>
    rw [act_complete]
    split <;> exact hdisk

private theorem filter_openPaths (s : Stage) (files : List Text) :
    files.filter (!(ConstantIndex.openPaths s.store).contains ·) =
      files.filter fun path => ¬ s.Shadowed path := by
  apply List.filter_congr
  intro path _
  have hiff : path ∈ ConstantIndex.openPaths s.store ↔ s.Shadowed path :=
    ConstantIndex.mem_openPaths
  simp [hiff]

/-- What a completion finds, file by file, if each file is listed once. -/
theorem found_eq {s : Stage} (hfiles : s.rubyFiles.Nodup) :
    (s.found s.disk).1 = s.constants ∧
    ∀ path, Entries.find? path (s.found s.disk).2.1.known =
      if path ∈ s.unshadowed then some (s.constantsOf path) else Entries.find? path s.known := by
  have hpaths : s.unshadowed.Nodup := hfiles.filter _
  have hnames := ConstantIndex.fileNames_eq s.backend.machine
    (s.backend.machine.note s.listing.2 s.disk) s.known hpaths
  simp only [found, ConstantIndex.names, filter_openPaths]
  cases hworkspace : s.backend.index.workspace with
  | none =>
    have hnone : s.unshadowed = [] := by simp [unshadowed, rubyFiles, listing, hworkspace]
    simp only [constants, hnone]
    exact ⟨(List.append_nil _).symm, fun path => rfl⟩
  | some w =>
    have hlist : (w.list s.disk false).1 = s.rubyFiles := by
      rw [rubyFiles, listing, hworkspace]
    have hlog : (w.list s.disk false).2.2 = s.listing.2 := by
      rw [listing, hworkspace]
    simp only [hlist, hlog]
    exact ⟨congrArg (ConstantIndex.openNames s.store ++ ·) hnames.1, hnames.2⟩

private theorem known_act {s : Stage} (hfiles : s.rubyFiles.Nodup) (path : Text) (a : Act) :
    Entries.find? path (s.act a).2.known =
      if s.asks path a then some (s.constantsOf path) else Entries.find? path s.known := by
  rw [known, index_act, asks]
  cases s.looks a with
  | true => simp [(found_eq hfiles).2 path]
  | false => rfl

private theorem workspace_found (s : Stage) : (s.found s.disk).2.1.workspace =
    s.backend.index.workspace.map fun w => { w with files := some (w.list s.disk false).1 } := by
  simp only [found, ConstantIndex.names]
  cases hworkspace : s.backend.index.workspace with
  | none => exact hworkspace
  | some w => exact congrArg some (w.list_eq s.disk)

theorem workspace_after (s : Stage) (history : List Act) :
    (s.after history).backend.index.workspace = s.backend.index.workspace.map fun w =>
      { w with
        files := w.files.or ((firstLook? history s).map fun t => Scan.files t.disk w.roots) } := by
  induction history generalizing s with
  | nil =>
    rw [firstLook?]
    simp [after]
  | cons a history ih =>
    have hstep := ih (s.act a).2
    rw [index_act] at hstep
    rw [after_cons, firstLook?]
    cases hlooks : s.looks a with
    | false => simpa [hlooks] using hstep
    | true =>
      rw [hlooks, if_pos rfl, workspace_found, Option.map_map] at hstep
      rw [if_pos rfl]
      refine hstep.trans (congrArg (Option.map · _) (funext fun w => ?_))
      cases hfiles : w.files with
      | none => simp [Workspace.list_of_none hfiles]
      | some files => simp [Workspace.list_of_some hfiles]

private theorem Fresh.files_eq {s : Stage} (hfresh : s.Fresh) {w : Workspace}
    (hw : s.backend.index.workspace = some w) :
    w.files = none ∧ ∀ root ∈ w.roots, Path.normal root = root := by
  obtain ⟨disk, roots, hcreate⟩ := hfresh.created w hw
  rw [Workspace.create_eq_ok hcreate]
  refine ⟨rfl, List.forall_mem_map.mpr fun root _ => Path.normal_absolute _ root⟩

/-- The files that count after a history are those that were found when they were first listed. -/
theorem rubyFiles_after {s : Stage} (hfresh : s.Fresh) (history : List Act) {w : Workspace}
    (hw : s.backend.index.workspace = some w) :
    (s.after history).rubyFiles = Scan.files (s.listedAt history).disk w.roots := by
  have hafter := workspace_after s history
  rw [hw, Option.map_some, (hfresh.files_eq hw).1, Option.none_or] at hafter
  rw [rubyFiles, listing, hafter, listedAt]
  cases firstLook? history s with
  | none => exact congrArg Prod.fst (Workspace.list_of_none rfl _)
  | some t => exact congrArg Prod.fst (Workspace.list_of_some rfl _)

private theorem rubyFiles_of_none {s : Stage} (hw : s.backend.index.workspace = none)
    (history : List Act) : (s.after history).rubyFiles = [] := by
  have hafter := workspace_after s history
  rw [hw, Option.map_none] at hafter
  rw [rubyFiles, listing, hafter]

private theorem pairwise_rubyFiles {s : Stage} (hfresh : s.Fresh) (history : List Act) :
    (s.after history).rubyFiles.Pairwise fun a b => a.codes < b.codes := by
  cases hw : s.backend.index.workspace with
  | none =>
    rw [rubyFiles_of_none hw]
    exact .nil
  | some w =>
    rw [rubyFiles_after hfresh history hw]
    exact Scan.pairwise_files _ _

private theorem nodup_rubyFiles {s : Stage} (hfresh : s.Fresh) (history : List Act) :
    (s.after history).rubyFiles.Nodup := by
  apply (pairwise_rubyFiles hfresh history).imp
  intro a b hlt heq
  exact lt_irrefl _ (heq ▸ hlt)

private theorem named_listedAt {s : Stage} (hdisk : s.disk.Named) {history : List Act}
    (hedits : ∀ d, Act.edit d ∈ history → d.Named) : (s.listedAt history).disk.Named := by
  induction history generalizing s with
  | nil => exact hdisk
  | cons a history ih =>
    have hstep : (s.act a).2.disk.Named :=
      named_act hdisk fun d ha => hedits d (ha ▸ List.mem_cons_self)
    rw [listedAt, firstLook?]
    split
    · exact hdisk
    · exact ih hstep fun d hd => hedits d (List.mem_cons_of_mem a hd)

theorem normal_rubyFiles {s : Stage} (hfresh : s.Fresh) {history : List Act}
    (hedits : ∀ d, Act.edit d ∈ history → d.Named) :
    ∀ path ∈ (s.after history).rubyFiles, Path.normal path = path := by
  cases hw : s.backend.index.workspace with
  | none =>
    rw [rubyFiles_of_none hw]
    exact List.forall_mem_nil _
  | some w =>
    rw [rubyFiles_after hfresh history hw]
    exact Scan.normal_files (named_listedAt hfresh.named hedits) (hfresh.files_eq hw).2

private theorem firstAsked?_concat (path : Text) (s : Stage) (history : List Act) (a : Act) :
    firstAsked? path (history ++ [a]) s = (firstAsked? path history s).or
      (if (s.after history).asks path a then some (s.after history) else none) := by
  induction history generalizing s with
  | nil => rfl
  | cons b history ih =>
    rw [List.cons_append, firstAsked?, firstAsked?, after_cons, ih]
    split <;> rfl

/-- A file is known exactly if its constants have been asked for, with those that it had when they
were first asked for. -/
theorem known_after {s : Stage} (hfresh : s.Fresh) (history : List Act) (path : Text) :
    Entries.find? path (s.after history).known =
      (firstAsked? path history s).map (·.readNow path) := by
  induction history using List.reverseRecOn with
  | nil =>
    show Entries.find? path s.known = none
    rw [hfresh.known_eq]
    rfl
  | append_singleton history a ih =>
    rw [after_concat, known_act (nodup_rubyFiles hfresh history), firstAsked?_concat, constantsOf,
      ih]
    cases firstAsked? path history s with
    | some t => simp
    | none => split <;> rfl

theorem readNow_eq {s : Stage} {path : Text}
    (h : ∀ log, s.backend.machine.logFile = some log → s.disk.locate path ≠ .ok log.place) :
    s.readNow path = (ConstantIndex.readNames s.disk path).1 := by
  rw [readNow, ConstantIndex.namesRead, Machine.note_note, ConstantIndex.readNames,
    Machine.read_note _ h]
  rfl

/-- A completion offers the constants of the project that begin with the path before the position,
each once and in order: those of the documents, and those of the Ruby files for which no document
stands. A file for which none stands is known afterwards; what is known of a file is what it held
when it was first asked for. A document stands for a file if it has the URI of the file's path. With
nothing before the position, nothing is offered and nothing changes. -/
theorem completion_offers_constants {s₀ s : Stage} (hfresh : s₀.Fresh) {history : List Act}
    (hedits : ∀ d, Act.edit d ∈ history → d.Named) (hs : s₀.after history = s) (query : Query)
    {text path : Text} (htext : s.store.get? query.uri = some text)
    (hpath : Constant.prefixAt text query.line query.character = path) :
    (path = [] → s.act (.complete query) = (some (.ok []), s)) ∧
    (path ≠ [] → ∃ index,
      s.act (.complete query) =
        (some (.ok ((s.constants.filter (path.isPrefixOf ·)).eraseDups.map fun name =>
          ⟨name, none, .className⟩)), s.withIndex index) ∧
      ∀ file, Entries.find? file index.known =
        if file ∈ s.unshadowed then some (s.constantsOf file) else Entries.find? file s.known) ∧
    (∀ file, Entries.find? file s.known = (firstAsked? file history s₀).map (·.readNow file)) ∧
    (∀ file, (∀ log, s.backend.machine.logFile = some log →
        s.disk.locate file ≠ .ok log.place) →
      s.readNow file = (ConstantIndex.readNames s.disk file).1) ∧
    (∀ w, s₀.backend.index.workspace = some w →
      s.rubyFiles = Scan.files (s₀.listedAt history).disk w.roots) ∧
    (s.rubyFiles.Pairwise fun a b => a.codes < b.codes) ∧
    ∀ file ∈ s.rubyFiles, file.Scalar → ∃ uri, (∀ current, Uri.ofPath current file = .ok uri) ∧
      (uri ∈ s.store.uris → s.Shadowed file) := by
  subst hs hpath
  have hact := act_of_text htext
  have hfound := found_eq (nodup_rubyFiles hfresh history)
  refine ⟨fun hnil => ?_, fun hne => ?_, known_after hfresh history, fun file => readNow_eq,
    fun w => rubyFiles_after hfresh history, pairwise_rubyFiles hfresh history, ?_⟩
  · rw [hact, if_pos hnil]
  · rw [if_neg hne, ConstantIndex.candidates_eq, hfound.1] at hact
    exact ⟨_, hact, hfound.2⟩
  · intro file hfile hscalar
    have habsolute := Path.absolute_of_normal (normal_rubyFiles hfresh hedits file hfile)
    have huri (current : Text) :
        Uri.ofPath current file = .ok (Text.ofString "file://" ++ Uri.quote file) := by
      rw [Uri.ofPath_eq_ok_iff, habsolute]
      exact ⟨hscalar, rfl⟩
    refine ⟨_, huri, fun hstored => ⟨_, hstored, ?_⟩⟩
    rw [Uri.toPath_of_ofPath (huri []), habsolute]

private theorem named_twoFiles (content : Bytes) : (twoFiles content).Named := by
  have hw : Path.Plain "w" := by decide
  have ha : Path.Plain "a.rb" := by decide
  have hb : Path.Plain "b.rb" := by decide
  refine .directory ?_ ?_
  · simpa [twoFiles] using hw
  · simp only [twoFiles, List.forall_mem_singleton]
    refine .directory ?_ ?_
    · simpa using ⟨ha, hb⟩
    · simpa using ⟨.file content, .file _⟩

private theorem fresh_unread (content : Bytes) (store : DocumentStore) :
    (unread content store).Fresh where
  known_eq := rfl
  created := by
    intro w hw
    cases hw
    refine ⟨twoFiles content, [("/w" : Text)], Workspace.create_of_directories ?_⟩
    have hroot : Path.absolute [Path.slash] "/w" = "/w" := by decide
    rw [List.forall_mem_singleton]
    change (twoFiles content).isDirectory (Path.absolute [Path.slash] "/w") = true
    rw [hroot, Disk.isDirectory, find_twoFiles]
  named := named_twoFiles content

private theorem unshadowed_opened : (unread [] opened).unshadowed = [("/w/b.rb" : Text)] :=
  (filter_openPaths (unread [] opened) _).symm.trans (visible_opened [])

private theorem readNow_opened : (unread [] opened).readNow "/w/b.rb" = [("B" : Text)] := by
  have hread : (unread [] opened).disk.read "/w/b.rb" = _ := (read_twoFiles []).2
  rw [readNow_eq (by intro log hlog; cases hlog), ConstantIndex.readNames, hread]
  decide +kernel

/-- The beginning of `removing`: a constant has been completed and all files have been removed. -/
def removed : List Act := removing.take 3

private theorem firstAsked?_removed :
    firstAsked? "/w/b.rb" removed (unread [] {}) = some (unread [] opened) := by
  have hasks : (unread [] opened).asks "/w/b.rb" (.complete ⟨"file:///w/a.rb", 0, 1⟩) = true := by
    rw [asks, looks_opened, unshadowed_opened]
    decide +kernel
  exact if_pos hasks

private theorem listedAt_removed : (unread [] {}).listedAt removed = unread [] opened :=
  congrArg (Option.getD · _) (if_pos (looks_opened []))

private theorem store_removed : ((unread [] {}).after removed).store = opened := by
  show ((unread [] opened).act (.complete ⟨"file:///w/a.rb", 0, 1⟩)).2.store = opened
  rw [act_complete, looks_opened]
  rfl

private theorem read_nothing : Disk.read {} "/w/b.rb" = .error .notFound := by
  have hnames : ("/w/b.rb" : Text).splitOn Path.slash = [[], "w", "b.rb"] := by decide
  have hsettle : Disk.settle [] .use Disk.maxLinks [] [[], "w", "b.rb"] = .error .notFound := by
    rw [Disk.settle, if_pos (by decide), Disk.settle, if_neg (by decide), if_neg (by decide),
      if_neg (by decide)]
    rfl
  have hlocate : Disk.locate {} "/w/b.rb" = .error .notFound := by
    rw [Disk.locate, Disk.locateTo, if_neg (by decide), if_neg (by decide), hnames]
    change (Disk.settle [] .use Disk.maxLinks [] [[], "w", "b.rb"]).map List.reverse = _
    rw [hsettle]
    rfl
  rw [Disk.read, Disk.find_of_locate_error hlocate]

/-- All files are gone from the disk, and what `b.rb` held is offered. -/
theorem completion_offers_constants_removed :
    (unread [] {}).Fresh ∧ (∀ d, Act.edit d ∈ removed → d.Named) ∧
    ((unread [] {}).after removed).disk.read "/w/b.rb" = .error .notFound ∧
    (((unread [] {}).after removed).act (.complete ⟨"file:///w/a.rb", 0, 1⟩)).1 =
      some (.ok [⟨"B", none, .className⟩]) := by
  have hfresh := fresh_unread [] {}
  have hedits : ∀ d, Act.edit d ∈ removed → d.Named := by
    intro d hd
    have hempty : d = {} := by simpa [removed, removing] using hd
    exact hempty ▸ .directory (List.forall_mem_nil _) (List.forall_mem_nil _)
  have htext : ((unread [] {}).after removed).store.get? "file:///w/a.rb" =
      some ("B" : Text) := by
    rw [store_removed]
    decide +kernel
  have hpath : Constant.prefixAt "B" 0 1 = ("B" : Text) := by decide +kernel
  obtain ⟨-, hoffers, hknown, -, hfiles, -, -⟩ :=
    completion_offers_constants hfresh hedits rfl ⟨"file:///w/a.rb", 0, 1⟩ htext hpath
  obtain ⟨index, hact, -⟩ := hoffers (by decide)
  have hunshadowed : ((unread [] {}).after removed).unshadowed = [("/w/b.rb" : Text)] := by
    have hlisted := hfiles _ rfl
    rw [listedAt_removed] at hlisted
    rw [unshadowed, ← filter_openPaths, hlisted, store_removed]
    exact visible_opened []
  have hconstants : ((unread [] {}).after removed).constants = [("B" : Text)] := by
    rw [constants, hunshadowed, List.flatMap_singleton, constantsOf, hknown, firstAsked?_removed,
      store_removed, Option.map_some, Option.getD_some, readNow_opened]
    decide +kernel
  have hoffered : (([("B" : Text)].filter (("B" : Text).isPrefixOf ·)).eraseDups.map
      fun name => (⟨name, none, .className⟩ : Candidate)) = [⟨"B", none, .className⟩] := by
    decide +kernel
  refine ⟨hfresh, hedits, ?_, ?_⟩
  · exact read_nothing
  · rw [hact, hconstants, hoffered]

end Stage

end RubyLanguageServer
