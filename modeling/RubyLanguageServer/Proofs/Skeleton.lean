import Mathlib.Tactic.Choose
import RubyLanguageServer.Machine.Program
import RubyLanguageServer.Proofs.Entries
import RubyLanguageServer.Workspace.Scan
/-!
# The disk without its contents

Where a path leads and which Ruby files a scan finds depends on the names on the disk and on the
kinds of what stands there, and not on what the files hold. Logging keeps all names and kinds, so
two disks that differ in the contents of some files differ in these only, also behind a report.
-/
namespace RubyLanguageServer

namespace Entry

mutual

/-- The entry with nothing in its files. -/
def skeleton : Entry → Entry
  | .file _ => .file []
  | .directory entries => .directory (skeletons entries)
  | .link target => .link target
  | .device => .device

def skeletons : List (Text × Entry) → List (Text × Entry)
  | [] => []
  | (name, entry) :: rest => (name, skeleton entry) :: skeletons rest

end

/-- The entry with the given content or the given entries in it, if it is a file or a directory. -/
def filled (content : Bytes) (inner : List (Text × Entry)) : Entry → Entry
  | .file _ => .file content
  | .directory _ => .directory inner
  | entry => entry

private theorem find?_skeletons (name : Text) (entries : List (Text × Entry)) :
    Entries.find? name (skeletons entries) = (Entries.find? name entries).map skeleton := by
  induction entries with
  | nil => rfl
  | cons e entries ih =>
    rw [skeletons, Entries.find?, Entries.find?]
    by_cases hname : e.1 = name
    · rw [if_pos hname, if_pos hname]
      rfl
    · rw [if_neg hname, if_neg hname, ih]

private theorem skeletons_insert (name : Text) (new : Entry) (entries : List (Text × Entry)) :
    skeletons (Entries.insert name new entries) =
      Entries.insert name new.skeleton (skeletons entries) := by
  induction entries with
  | nil => rfl
  | cons e entries ih =>
    rw [Entries.insert, skeletons, Entries.insert]
    by_cases hname : e.1 = name
    · rw [if_pos hname, if_pos hname, skeletons]
    · rw [if_neg hname, if_neg hname, skeletons, ih]

end Entry

namespace Entries

theorem insert_of_find? {α : Type} {key : Text} {v : α} {es : Entries α}
    (h : find? key es = some v) : insert key v es = es := by
  induction es with
  | nil => cases h
  | cons e es ih =>
    rw [find?] at h
    rw [insert]
    by_cases hkey : e.1 = key
    · rw [if_pos hkey] at h
      cases h
      rw [if_pos hkey]
    · rw [if_neg hkey] at h
      rw [if_neg hkey, ih h]

end Entries

namespace Disk

open Entry

private theorem entryAt_skeletons (place : Place) (entries : List (Text × Entry)) :
    entryAt place (skeletons entries) = (entryAt place entries).map skeleton := by
  induction place generalizing entries with
  | nil => rfl
  | cons name rest ih =>
    rw [entryAt, entryAt, find?_skeletons]
    cases hfind : Entries.find? name entries with
    | none => rfl
    | some entry =>
      cases entry with
      | directory inner => exact ih inner
      | _ => by_cases hrest : rest = [] <;> simp [hrest, skeleton]

/-- Where names lead depends only on the kinds of the entries there and the targets of links. -/
theorem settle_congr {root root' : List (Text × Entry)}
    (h : ∀ place, ∃ content inner,
      entryAt place root' = (entryAt place root).map (filled content inner))
    (purpose : Purpose) (links : Nat) (here names : List Text) :
    settle root' purpose links here names = settle root purpose links here names := by
  choose content inner hentry using h
  fun_induction settle root purpose links here names with
  | case1 => rw [settle]
  | case13 here name rest h hdots hsize target hlink links names ih =>
    rw [settle]
    simp only [dite_eq_ite] at ih
    simp [-List.reverse_cons, h, hdots, hsize, hlink, hentry, filled, ← ih, names]
  | _ =>
    rw [settle]
    simp [-List.reverse_cons, *, filled]

private theorem settle_skeletons (root : List (Text × Entry)) (purpose : Purpose) (links : Nat)
    (here names : List Text) :
    settle (skeletons root) purpose links here names = settle root purpose links here names := by
  apply settle_congr
  intro place
  rw [entryAt_skeletons]
  cases entryAt place root with
  | none => exact ⟨[], [], rfl⟩
  | some entry =>
    cases entry with
    | directory inner => exact ⟨[], skeletons inner, rfl⟩
    | _ => exact ⟨[], [], rfl⟩

/-- The disk with nothing in its files. -/
def skeleton (d : Disk) : Disk := { d with root := skeletons d.root }

private theorem locateTo_skeleton (purpose : Purpose) (d : Disk) (path : Text) :
    d.skeleton.locateTo purpose path = d.locateTo purpose path := by
  rw [locateTo, locateTo, skeleton, settle_skeletons]
  rfl

private theorem locate_skeleton (d : Disk) (path : Text) : d.skeleton.locate path = d.locate path :=
  locateTo_skeleton .use d path

theorem find_of_locate {d : Disk} {path : Text} {place : Place} (h : d.locate path = .ok place) :
    d.find path = ((entryAt place d.root).map Except.ok).getD (.error .notFound) := by
  rw [find, h]
  cases hentry : entryAt place d.root <;> simp [hentry, bind, Except.bind]

theorem find_of_locate_error {d : Disk} {path : Text} {e : DiskError}
    (h : d.locate path = .error e) : d.find path = .error e := by
  rw [find, h]
  rfl

private theorem find_skeleton (d : Disk) (path : Text) :
    d.skeleton.find path = (d.find path).map Entry.skeleton := by
  have hlocate := locate_skeleton d path
  cases h : d.locate path with
  | error e =>
    rw [h] at hlocate
    rw [find_of_locate_error h, find_of_locate_error hlocate]
    rfl
  | ok place =>
    rw [h] at hlocate
    rw [find_of_locate h, find_of_locate hlocate, skeleton, entryAt_skeletons]
    cases entryAt place d.root <;> rfl

private theorem isDirectory_skeleton (d : Disk) : d.skeleton.isDirectory = d.isDirectory := by
  funext path
  rw [isDirectory, isDirectory, find_skeleton]
  cases d.find path with
  | error e => rfl
  | ok entry => cases entry <;> rfl

end Disk

namespace Scan

open Entry

mutual

theorem entryFiles_skeleton (isDirectory : Text → Bool) (directory name : Text) :
    ∀ entry : Entry, entryFiles isDirectory directory name entry.skeleton =
      entryFiles isDirectory directory name entry
  | .file _ => rfl
  | .device => rfl
  | .link _ => rfl
  | .directory entries => by
    rw [skeleton, entryFiles, entryFiles, directoryFiles_skeletons isDirectory _ entries]

private theorem directoryFiles_skeletons (isDirectory : Text → Bool) (directory : Text) :
    ∀ entries : List (Text × Entry), directoryFiles isDirectory directory (skeletons entries) =
      directoryFiles isDirectory directory entries
  | [] => rfl
  | (name, entry) :: rest => by
    rw [skeletons, directoryFiles, directoryFiles,
      entryFiles_skeleton isDirectory directory name entry,
      directoryFiles_skeletons isDirectory directory rest]

end

private theorem rootFiles_skeleton (d : Disk) (root : Text) :
    rootFiles d.skeleton root = rootFiles d root := by
  rw [rootFiles, rootFiles, Disk.find_skeleton, Disk.isDirectory_skeleton]
  cases d.find root with
  | error e => rfl
  | ok entry =>
    cases entry with
    | directory entries => exact directoryFiles_skeletons d.isDirectory root entries
    | _ => rfl

theorem files_skeleton (d : Disk) (roots : List Text) : files d.skeleton roots = files d roots := by
  have hroots : rootFiles d.skeleton = rootFiles d := funext (rootFiles_skeleton d)
  rw [files, files, hroots]

end Scan

namespace Disk

open Entry

/-- The disks differ in what files hold, at most, and not for the given paths. -/
structure Agree (paths : List Text) (d d' : Disk) : Prop where
  skeleton_eq : d.skeleton = d'.skeleton
  read_eq : ∀ path ∈ paths, d.read path = d'.read path

theorem Agree.refl (paths : List Text) (d : Disk) : Agree paths d d := ⟨rfl, fun _ _ => rfl⟩

theorem Agree.files_eq {paths : List Text} {d d' : Disk} (h : Agree paths d d')
    (roots : List Text) : Scan.files d roots = Scan.files d' roots := by
  rw [← Scan.files_skeleton d, h.skeleton_eq, Scan.files_skeleton]

theorem locate_of_skeleton_eq {d d' : Disk} (h : d.skeleton = d'.skeleton) (path : Text) :
    d.locate path = d'.locate path := by
  rw [← locate_skeleton, h, locate_skeleton]

theorem entryAt_of_skeleton_eq {d d' : Disk} (h : d.skeleton = d'.skeleton) (place : Place) :
    (entryAt place d.root).map Entry.skeleton = (entryAt place d'.root).map Entry.skeleton := by
  rw [← entryAt_skeletons, ← entryAt_skeletons]
  exact congrArg (fun d => entryAt place d.root) h

def readEntry : Option Entry → Except DiskError Bytes
  | some (.file content) => .ok content
  | some .device => .ok []
  | some _ => .error .isDirectory
  | none => .error .notFound

theorem read_of_locate {d : Disk} {path : Text} {place : Place} (h : d.locate path = .ok place) :
    d.read path = readEntry (entryAt place d.root) := by
  rw [read, find_of_locate h]
  cases entryAt place d.root with
  | none => rfl
  | some entry => cases entry <;> rfl

theorem read_of_locate_error {d : Disk} {path : Text} {e : DiskError}
    (h : d.locate path = .error e) : d.read path = .error e := by
  rw [read, find_of_locate_error h]

theorem entryAt_cons_file {name : Text} {rest : Place} {entries : List (Text × Entry)}
    {content : Bytes} (h : entryAt (name :: rest) entries = some (.file content)) :
    (rest = [] ∧ Entries.find? name entries = some (.file content)) ∨
    rest ≠ [] ∧ ∃ inner, Entries.find? name entries = some (.directory inner) ∧
      entryAt rest inner = some (.file content) := by
  rw [entryAt] at h
  cases hfind : Entries.find? name entries with
  | none =>
    rw [hfind] at h
    cases h
  | some entry =>
    rw [hfind] at h
    cases entry with
    | directory inner =>
      refine .inr ⟨?_, inner, rfl, h⟩
      rintro rfl
      cases h
    | _ =>
      by_cases hrest : rest = []
      · simp_all
      · simp_all

private theorem insertBelow_cons {new : Entry} {name : Text} {rest : Place} (hrest : rest ≠ [])
    {entries inner : List (Text × Entry)}
    (hfind : Entries.find? name entries = some (.directory inner)) :
    insertBelow new (name :: rest) entries =
      Entries.insert name (.directory (insertBelow new rest inner)) entries := by
  rw [insertBelow, hfind]
  exact hrest

theorem skeletons_insertBelow {place : Place} {entries : List (Text × Entry)}
    {old new : Bytes} (h : entryAt place entries = some (.file old)) :
    skeletons (insertBelow (.file new) place entries) = skeletons entries := by
  induction place generalizing entries with
  | nil => cases h
  | cons name rest ih =>
    rcases entryAt_cons_file h with ⟨rfl, hfind⟩ | ⟨hrest, inner, hfind, hinner⟩
    · rw [insertBelow, skeletons_insert]
      apply Entries.insert_of_find?
      rw [find?_skeletons, hfind]
      rfl
    · rw [insertBelow_cons hrest hfind, skeletons_insert, Entry.skeleton, ih hinner]
      apply Entries.insert_of_find?
      rw [find?_skeletons, hfind]
      rfl

private theorem entryAt_insertBelow_self {place : Place} {entries : List (Text × Entry)}
    {old new : Bytes} (h : entryAt place entries = some (.file old)) :
    entryAt place (insertBelow (.file new) place entries) = some (.file new) := by
  induction place generalizing entries with
  | nil => cases h
  | cons name rest ih =>
    rcases entryAt_cons_file h with ⟨rfl, hfind⟩ | ⟨hrest, inner, hfind, hinner⟩
    · rw [insertBelow, entryAt, Entries.find?_insert_self]
      rfl
    · rw [insertBelow_cons hrest hfind, entryAt, Entries.find?_insert_self]
      exact ih hinner

private theorem insertBelow_self {place : Place} {entries : List (Text × Entry)} {content : Bytes}
    (h : entryAt place entries = some (.file content)) :
    insertBelow (.file content) place entries = entries := by
  induction place generalizing entries with
  | nil => cases h
  | cons name rest ih =>
    rcases entryAt_cons_file h with ⟨rfl, hfind⟩ | ⟨hrest, inner, hfind, hinner⟩
    · exact Entries.insert_of_find? hfind
    · rw [insertBelow_cons hrest hfind, ih hinner, Entries.insert_of_find? hfind]

private theorem insertBelow_insertBelow {place : Place} {entries : List (Text × Entry)}
    {old first second : Bytes} (h : entryAt place entries = some (.file old)) :
    insertBelow (.file second) place (insertBelow (.file first) place entries) =
      insertBelow (.file second) place entries := by
  induction place generalizing entries with
  | nil => cases h
  | cons name rest ih =>
    rcases entryAt_cons_file h with ⟨rfl, hfind⟩ | ⟨hrest, inner, hfind, hinner⟩
    · exact Entries.insert_insert name _ _ entries
    · rw [insertBelow_cons hrest hfind,
        insertBelow_cons hrest (Entries.find?_insert_self name _ entries), ih hinner,
        Entries.insert_insert, insertBelow_cons hrest hfind]

theorem entryAt_insertBelow_of_ne {place other : Place} (hne : other ≠ place)
    {entries : List (Text × Entry)} {old new content : Bytes}
    (h : entryAt place entries = some (.file old))
    (hother : entryAt other entries = some (.file content)) :
    entryAt other (insertBelow (.file new) place entries) = some (.file content) := by
  induction place generalizing entries other with
  | nil => cases h
  | cons name rest ih =>
    cases other with
    | nil => cases hother
    | cons name' rest' =>
      by_cases hname : name = name'
      · subst hname
        rcases entryAt_cons_file h with ⟨rfl, hfind⟩ | ⟨hrest, inner, hfind, hinner⟩
        · rcases entryAt_cons_file hother with ⟨rfl, _⟩ | ⟨_, inner, hdirectory, _⟩
          · exact absurd rfl hne
          · rw [hfind] at hdirectory
            cases hdirectory
        · rcases entryAt_cons_file hother with ⟨_, hfile⟩ | ⟨_, inner', hdirectory, hinner'⟩
          · rw [hfind] at hfile
            cases hfile
          · rw [hfind] at hdirectory
            cases hdirectory
            have hne' : rest' ≠ rest := fun heq => hne (heq ▸ rfl)
            rw [insertBelow_cons hrest hfind, entryAt, Entries.find?_insert_self]
            exact ih hne' hinner hinner'
      · have hinsert : ∃ entry, insertBelow (.file new) (name :: rest) entries =
            Entries.insert name entry entries := by
          cases rest with
          | nil => exact ⟨_, rfl⟩
          | cons next rest => exact ⟨_, rfl⟩
        obtain ⟨entry, hinsert⟩ := hinsert
        rw [entryAt] at hother
        rw [hinsert, entryAt, Entries.find?_insert_of_ne hname]
        exact hother

theorem readEntry_of_skeleton_eq {entry entry' : Option Entry}
    (h : entry.map Entry.skeleton = entry'.map Entry.skeleton)
    (hfile : ∀ content, entry ≠ some (.file content)) : readEntry entry = readEntry entry' := by
  cases entry with
  | none => cases entry' <;> simp_all
  | some e =>
    cases entry' with
    | none => simp_all
    | some e' => cases e <;> cases e' <;> simp_all [Entry.skeleton, readEntry]

section NewContent

variable {d : Disk} {place : Place} {old : Bytes} (new : Bytes)

private theorem skeleton_insertBelow (h : entryAt place d.root = some (.file old)) :
    skeleton { d with root := insertBelow (.file new) place d.root } = d.skeleton :=
  congrArg (Disk.mk · d.current) (skeletons_insertBelow h)

private theorem read_insertBelow_of_locate (h : entryAt place d.root = some (.file old))
    {path : Text} (hlocate : d.locate path = .ok place) :
    read { d with root := insertBelow (.file new) place d.root } path = .ok new := by
  have hsame := locate_of_skeleton_eq (skeleton_insertBelow new h) path
  rw [read_of_locate (hsame.trans hlocate), entryAt_insertBelow_self h, readEntry]

private theorem read_insertBelow_of_ne (h : entryAt place d.root = some (.file old)) {path : Text}
    (hne : d.locate path ≠ .ok place) :
    read { d with root := insertBelow (.file new) place d.root } path = d.read path := by
  have hskeleton := skeleton_insertBelow new h
  have hsame := locate_of_skeleton_eq hskeleton path
  cases hlocate : d.locate path with
  | error e => rw [read_of_locate_error (hsame.trans hlocate), read_of_locate_error hlocate]
  | ok there =>
    rw [read_of_locate (hsame.trans hlocate), read_of_locate hlocate]
    by_cases hfile : ∃ content, entryAt there d.root = some (.file content)
    · obtain ⟨content, hcontent⟩ := hfile
      have hthere : there ≠ place := fun heq => hne (heq ▸ hlocate)
      rw [hcontent, entryAt_insertBelow_of_ne hthere h hcontent]
    · symm
      apply readEntry_of_skeleton_eq (entryAt_of_skeleton_eq hskeleton there).symm
      intro content hcontent
      exact hfile ⟨content, hcontent⟩

end NewContent

theorem exists_file_of_skeleton_eq {entry entry' : Option Entry} {content : Bytes}
    (h : entry.map Entry.skeleton = entry'.map Entry.skeleton)
    (hfile : entry = some (.file content)) : ∃ content', entry' = some (.file content') := by
  subst hfile
  cases entry' with
  | none => cases h
  | some e' => cases e' <;> simp_all [Entry.skeleton]

/-- Disks that agree do so once the same bytes have been added to a file on both. -/
theorem Agree.insertBelow {paths : List Text} {d d' : Disk} (h : Agree paths d d')
    {place : Place} {old old' : Bytes} (hold : entryAt place d.root = some (.file old))
    (hold' : entryAt place d'.root = some (.file old')) (more : Bytes) :
    Agree paths { d with root := insertBelow (.file (old ++ more)) place d.root }
      { d' with root := insertBelow (.file (old' ++ more)) place d'.root } := by
  constructor
  · rw [skeleton_insertBelow _ hold, skeleton_insertBelow _ hold', h.skeleton_eq]
  · intro path hpath
    have hlocate := locate_of_skeleton_eq h.skeleton_eq path
    by_cases hplace : d.locate path = .ok place
    · have hplace' := hlocate.symm.trans hplace
      have hread := h.read_eq path hpath
      rw [read_of_locate hplace, read_of_locate hplace', hold, hold'] at hread
      cases hread
      rw [read_insertBelow_of_locate _ hold hplace, read_insertBelow_of_locate _ hold' hplace']
    · have hplace' : d'.locate path ≠ .ok place := hlocate ▸ hplace
      rw [read_insertBelow_of_ne _ hold hplace, read_insertBelow_of_ne _ hold' hplace']
      exact h.read_eq path hpath

private theorem append_of_file {d : Disk} {file : LogFile} {content : Bytes}
    (h : entryAt file.place d.root = some (.file content)) (time : Text) (log : List Event) :
    file.append time log d =
      { d with
        root := insertBelow (.file (content ++ file.bytes time log)) file.place d.root } := by
  rw [LogFile.append, h]
  cases hlog : file.bytes time log with
  | nil => rw [List.append_nil, insertBelow_self h]
  | cons b bs => rfl

private theorem append_of_no_file {d : Disk} {file : LogFile}
    (h : ∀ content, entryAt file.place d.root ≠ some (.file content)) (time : Text)
    (log : List Event) : file.append time log d = d := by
  rw [LogFile.append]
  split
  · rfl
  · rename_i hfile _
    exact absurd hfile (h _)
  · rfl

/-- Logging adds to the log file, if it is there, and else does nothing. -/
theorem append_cases (file : LogFile) (d : Disk) :
    (∃ content, entryAt file.place d.root = some (.file content) ∧
      ∀ time log, file.append time log d =
        { d with
          root := insertBelow (.file (content ++ file.bytes time log)) file.place d.root }) ∨
    (∀ content, entryAt file.place d.root ≠ some (.file content)) ∧
      ∀ time log, file.append time log d = d := by
  by_cases hfile : ∃ content, entryAt file.place d.root = some (.file content)
  · obtain ⟨content, hcontent⟩ := hfile
    exact .inl ⟨content, hcontent, append_of_file hcontent⟩
  · have hnone : ∀ content, entryAt file.place d.root ≠ some (.file content) :=
      fun content hcontent => hfile ⟨content, hcontent⟩
    exact .inr ⟨hnone, append_of_no_file hnone⟩

private theorem Agree.append {paths : List Text} {d d' : Disk} (h : Agree paths d d')
    (file : LogFile) (time : Text) (log : List Event) :
    Agree paths (file.append time log d) (file.append time log d') := by
  have hentry := entryAt_of_skeleton_eq h.skeleton_eq file.place
  rcases append_cases file d with ⟨content, hold, happend⟩ | ⟨hnone, happend⟩
  · obtain ⟨content', hold'⟩ := exists_file_of_skeleton_eq hentry hold
    rw [happend, append_of_file hold']
    exact h.insertBelow hold hold' _
  · have hnone' : ∀ content, entryAt file.place d'.root ≠ some (.file content) := by
      intro content hcontent
      obtain ⟨content', hcontent'⟩ := exists_file_of_skeleton_eq hentry.symm hcontent
      exact hnone content' hcontent'
    rw [happend, append_of_no_file hnone']
    exact h

/-- Disks that agree do so behind a report. -/
theorem Agree.note {paths : List Text} {d d' : Disk} (h : Agree paths d d') (m : Machine)
    (log : List Event) : Agree paths (m.note log d) (m.note log d') := by
  rw [Machine.note, Machine.note]
  cases m.logFile with
  | none => exact h
  | some file => exact h.append file m.clock log

private theorem skeleton_append (file : LogFile) (time : Text) (log : List Event) (d : Disk) :
    (file.append time log d).skeleton = d.skeleton := by
  rcases append_cases file d with ⟨content, hcontent, happend⟩ | ⟨_, happend⟩
  · rw [happend, skeleton_insertBelow _ hcontent]
  · rw [happend]

theorem append_append (file : LogFile) (time : Text) (log more : List Event) (d : Disk) :
    file.append time more (file.append time log d) = file.append time (log ++ more) d := by
  rcases append_cases file d with ⟨content, hcontent, happend⟩ | ⟨_, happend⟩
  · have hadded : entryAt file.place
        (Disk.insertBelow (.file (content ++ file.bytes time log)) file.place d.root) =
          some (.file (content ++ file.bytes time log)) := entryAt_insertBelow_self hcontent
    have hbytes : file.bytes time (log ++ more) = file.bytes time log ++ file.bytes time more := by
      simp only [LogFile.bytes, Level.select, List.filter_append, List.flatMap_append]
    rw [happend, append_of_file hadded, happend, insertBelow_insertBelow hcontent, hbytes,
      List.append_assoc]
  · simp only [happend]

end Disk

namespace Machine

variable (m : Machine)

theorem note_nil (d : Disk) : m.note [] d = d := by
  rw [note]
  cases m.logFile <;> rfl

theorem skeleton_note (log : List Event) (d : Disk) : (m.note log d).skeleton = d.skeleton := by
  rw [note]
  cases m.logFile with
  | none => rfl
  | some file => exact Disk.skeleton_append file m.clock log d

theorem read_note {d : Disk} {path : Text}
    (h : ∀ file, m.logFile = some file → d.locate path ≠ .ok file.place) (log : List Event) :
    (m.note log d).read path = d.read path := by
  rw [note]
  cases hfile : m.logFile with
  | none => rfl
  | some file =>
    rcases Disk.append_cases file d with ⟨content, hcontent, happend⟩ | ⟨_, happend⟩
    · simp only [happend]
      exact Disk.read_insertBelow_of_ne _ hcontent (h file hfile)
    · simp only [happend]

theorem note_note (log more : List Event) (d : Disk) :
    m.note more (m.note log d) = m.note (log ++ more) d := by
  simp only [note]
  cases m.logFile with
  | none => rfl
  | some file => exact Disk.append_append file m.clock log more d

end Machine

end RubyLanguageServer
