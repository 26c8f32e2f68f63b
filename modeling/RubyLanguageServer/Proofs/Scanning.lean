import Mathlib.Data.List.Lex
import Mathlib.Data.List.Sort
import RubyLanguageServer.Proofs.Paths
import RubyLanguageServer.Proofs.Skeleton
import RubyLanguageServer.Workspace.Basic
/-!
# The order and the form of what a scan finds

Texts are ordered as the lists of their code points. The files that a scan finds stand in strictly
ascending order, so each is found once. On a disk whose names are plain, the paths found below a
normal root are normal.
-/
namespace RubyLanguageServer

namespace Text

/-- The code points as numbers, whose lists are ordered by the first difference. -/
def codes (t : Text) : List Nat := t.map CodePoint.val

private theorem codes_injective {s t : Text} (h : s.codes = t.codes) : s = t := by
  apply List.map_inj_right (f := CodePoint.val) ?_ |>.mp h
  intro a b hval
  cases a
  cases b
  cases hval
  rfl

theorem le_iff {s t : Text} : le s t = true ↔ s.codes ≤ t.codes := by
  rw [← not_lt]
  induction s generalizing t with
  | nil => simp [le, codes]
  | cons a s ih =>
    cases t with
    | nil => simp [le, codes]
    | cons b t =>
      have hrest : le s t = true ↔ ¬ t.map CodePoint.val < s.map CodePoint.val := ih
      simp only [le, codes, List.map_cons, List.cons_lt_cons_iff, Bool.or_eq_true,
        Bool.and_eq_true, beq_iff_eq, decide_eq_true_eq, hrest]
      rcases lt_trichotomy a.val b.val with hval | hval | hval
      · simp [hval, hval.ne', hval.le]
      · simp [hval]
      · simp [hval, hval.ne', hval.le]

private theorem pairwise_sort (ts : List Text) : (sort ts).Pairwise fun s t => s.codes ≤ t.codes :=
    by
  have hsorted : (sort ts).Pairwise fun s t => le s t = true := by
    apply List.pairwise_mergeSort
    · intro a b c hab hbc
      rw [le_iff] at *
      exact le_trans hab hbc
    · intro a b
      rw [Bool.or_eq_true, le_iff, le_iff]
      exact le_total _ _
  exact hsorted.imp le_iff.mp

private theorem mem_dropRepeats {t : Text} {ts : List Text} : t ∈ dropRepeats ts ↔ t ∈ ts := by
  fun_induction dropRepeats ts with
  | case1 => rfl
  | case2 => rfl
  | case3 s ts ih => simp [ih]
  | case4 s u ts hne ih => simp [ih]

private theorem pairwise_dropRepeats {ts : List Text}
    (h : ts.Pairwise fun s t => s.codes ≤ t.codes) :
    (dropRepeats ts).Pairwise fun s t => s.codes < t.codes := by
  fun_induction dropRepeats ts with
  | case1 => exact .nil
  | case2 => exact List.pairwise_singleton _ _
  | case3 s ts ih => exact ih (List.pairwise_cons.mp h).2
  | case4 s u ts hne ih =>
    obtain ⟨hfirst, hrest⟩ := List.pairwise_cons.mp h
    have hfirst' := (List.pairwise_cons.mp hrest).1
    refine List.pairwise_cons.mpr ⟨fun t ht => ?_, ih hrest⟩
    have hu : s.codes < u.codes := by
      apply lt_of_le_of_ne (hfirst u List.mem_cons_self)
      exact fun hcodes => hne (codes_injective hcodes)
    rcases List.mem_cons.mp (mem_dropRepeats.mp ht) with rfl | ht
    · exact hu
    · exact lt_of_lt_of_le hu (hfirst' t ht)

theorem pairwise_sortDistinct (ts : List Text) :
    (sortDistinct ts).Pairwise fun s t => s.codes < t.codes :=
  pairwise_dropRepeats (pairwise_sort ts)

theorem mem_sortDistinct {t : Text} {ts : List Text} : t ∈ sortDistinct ts ↔ t ∈ ts :=
  mem_dropRepeats.trans List.mem_mergeSort

/-- What is sorted is known from its members. -/
theorem sortDistinct_eq {ts us : List Text} (hus : us.Pairwise fun s t => s.codes < t.codes)
    (h : ∀ t, t ∈ ts ↔ t ∈ us) : sortDistinct ts = us := by
  have : Std.Irrefl fun s t : Text => s.codes < t.codes := ⟨fun t => lt_irrefl t.codes⟩
  apply (pairwise_sortDistinct ts).eq_of_mem_iff hus
  intro t
  rw [mem_sortDistinct, h]

end Text

/-- All names in the tree are plain. -/
inductive Entry.Named : Entry → Prop
  | file (content : Bytes) : Named (.file content)
  | link (target : Text) : Named (.link target)
  | device : Named .device
  | directory {entries : List (Text × Entry)} (names : ∀ e ∈ entries, Path.Plain e.1)
      (inner : ∀ e ∈ entries, Named e.2) : Named (.directory entries)

namespace Disk

/-- All names on the disk are plain, as those on every real disk are. -/
def Named (d : Disk) : Prop := (Entry.directory d.root).Named

private theorem named_entryAt {place : Place} {entries : List (Text × Entry)} {entry : Entry}
    (hnamed : (Entry.directory entries).Named) (h : entryAt place entries = some entry) :
    entry.Named := by
  induction place generalizing entries with
  | nil =>
    cases h
    exact hnamed
  | cons name rest ih =>
    rw [entryAt] at h
    cases hfind : Entries.find? name entries with
    | none => simp [hfind] at h
    | some next =>
      have hnext : next.Named := by
        cases hnamed with
        | directory names inner => exact inner _ (Entries.mem_of_find? hfind)
      cases next with
      | directory inner =>
        simp only [hfind] at h
        exact ih hnext h
      | _ =>
        simp only [hfind] at h
        split at h <;> cases h
        exact hnext

private theorem Named.find {d : Disk} (hnamed : d.Named) {path : Text} {entry : Entry}
    (h : d.find path = .ok entry) : entry.Named := by
  cases hlocate : d.locate path with
  | error e =>
    rw [find_of_locate_error hlocate] at h
    cases h
  | ok place =>
    rw [find_of_locate hlocate] at h
    cases hentry : entryAt place d.root with
    | none => simp [hentry] at h
    | some found =>
      have hfound : found = entry := by simpa [hentry] using h
      exact hfound ▸ named_entryAt hnamed hentry

private theorem exists_directory_of_entryAt {place rest : Place} {entries : List (Text × Entry)}
    {entry : Entry} (hrest : rest ≠ []) (h : entryAt (place ++ rest) entries = some entry) :
    ∃ inner, entryAt place entries = some (.directory inner) := by
  induction place generalizing entries with
  | nil => exact ⟨entries, rfl⟩
  | cons name place ih =>
    rw [List.cons_append, entryAt] at h
    rw [entryAt]
    cases hfind : Entries.find? name entries with
    | none => simp [hfind] at h
    | some next =>
      cases next with
      | directory inner =>
        simp only [hfind] at h
        exact ih h
      | _ => simp [hfind, hrest] at h

/-- Plain names lead to the place that they name, unless a link stands there. -/
theorem settle_of_plain {root : List (Text × Entry)} (here : List Text) {names : List Text}
    {entry : Entry} (hplain : ∀ name ∈ names, Path.Plain name ∧ Utf8.size name ≤ maxName)
    (hentry : entryAt (here.reverse ++ names) root = some entry)
    (hlink : ∀ target, entry ≠ .link target) (purpose : Purpose) (links : Nat) :
    settle root purpose links here names = .ok (names.reverse ++ here) := by
  induction names generalizing here with
  | nil =>
    rw [settle]
    rfl
  | cons name rest ih =>
    obtain ⟨⟨hname, hsize⟩, hplain⟩ := List.forall_mem_cons.mp hplain
    have hbehind : entryAt ((name :: here).reverse ++ rest) root = some entry := by
      simpa using hentry
    have hrest : settle root purpose links (name :: here) rest =
        .ok ((name :: rest).reverse ++ here) := by
      simpa using ih (name :: here) hplain hbehind
    have hkept : ¬(name = [] || name = Text.ofString ".") = true := by
      simp [hname.ne_nil, hname.ne_dot]
    rw [settle, if_neg hkept, if_neg hname.ne_dots, if_neg (Nat.not_lt.mpr hsize)]
    by_cases hlast : rest = []
    · subst hlast
      rw [List.append_nil] at hbehind
      rw [hbehind]
      cases entry with
      | file content => rfl
      | device => rfl
      | directory inner => exact hrest
      | link target => exact absurd rfl (hlink target)
    · obtain ⟨inner, hinner⟩ := exists_directory_of_entryAt hlast hbehind
      rw [hinner]
      exact hrest

theorem find_of_plain {d : Disk} {path : Text} (names : Place) {entry : Entry}
    (hsize : Utf8.size path ≤ maxPath) (hslash : path.head? = some Path.slash)
    (hnames : path.splitOn Path.slash = [] :: names)
    (hplain : ∀ name ∈ names, Path.Plain name ∧ Utf8.size name ≤ maxName)
    (hentry : entryAt names d.root = some entry) (hlink : ∀ target, entry ≠ .link target) :
    d.find path = .ok entry := by
  have hne : path ≠ [] := by
    rintro rfl
    cases hslash
  have hsettle : settle d.root .use maxLinks [] names = .ok (names.reverse ++ []) :=
    settle_of_plain [] hplain hentry hlink .use maxLinks
  have hlocate : d.locate path = .ok names := by
    rw [locate, locateTo, if_neg hne, if_neg (Nat.not_lt.mpr hsize), start, if_pos hslash, hnames,
      settle, if_pos (by decide), hsettle, List.append_nil]
    exact congrArg Except.ok (List.reverse_reverse names)
  rw [find_of_locate hlocate, hentry]
  rfl

end Disk

namespace Scan

theorem mem_directoryFiles {isDirectory : Text → Bool} {directory path : Text}
    {entries : List (Text × Entry)} : path ∈ directoryFiles isDirectory directory entries ↔
      ∃ e ∈ entries, path ∈ entryFiles isDirectory directory e.1 e.2 := by
  induction entries with
  | nil => simp [directoryFiles]
  | cons e entries ih => simp [directoryFiles, ih]

private theorem normal_entryFiles {entry : Entry} (hnamed : entry.Named) (isDirectory : Text → Bool)
    {directory name : Text} (hdirectory : Path.normal directory = directory)
    (hname : Path.Plain name) :
    ∀ path ∈ entryFiles isDirectory directory name entry, Path.normal path = path := by
  have hjoin := Path.normal_join hdirectory hname
  induction hnamed generalizing directory name with
  | directory names inner ih =>
    intro path hpath
    rw [entryFiles] at hpath
    split at hpath
    · cases hpath
    · obtain ⟨e, he, hpath⟩ := mem_directoryFiles.mp hpath
      exact ih e he hjoin (names e he) (Path.normal_join hjoin (names e he)) path hpath
  | _ =>
    intro path hpath
    rw [entryFiles] at hpath
    split at hpath
    · exact List.mem_singleton.mp hpath ▸ hjoin
    · cases hpath

private theorem normal_rootFiles {d : Disk} (hnamed : d.Named) {root : Text}
    (hroot : Path.normal root = root) : ∀ path ∈ rootFiles d root, Path.normal path = path := by
  intro path hpath
  rw [rootFiles] at hpath
  split at hpath
  · rename_i entries hfind
    cases hnamed.find hfind with
    | directory names inner =>
      obtain ⟨e, he, hpath⟩ := mem_directoryFiles.mp hpath
      exact normal_entryFiles (inner e he) _ hroot (names e he) path hpath
  · cases hpath

theorem normal_files {d : Disk} (hnamed : d.Named) {roots : List Text}
    (hroots : ∀ root ∈ roots, Path.normal root = root) :
    ∀ path ∈ files d roots, Path.normal path = path := by
  intro path hpath
  obtain ⟨root, hroot, hpath⟩ := List.mem_flatMap.mp (Text.mem_sortDistinct.mp hpath)
  exact normal_rootFiles hnamed (hroots root hroot) path hpath

theorem pairwise_files (d : Disk) (roots : List Text) :
    (files d roots).Pairwise fun s t => s.codes < t.codes :=
  Text.pairwise_sortDistinct _

end Scan

namespace Workspace

theorem create_of_directories {d : Disk} {roots : List Text}
    (h : ∀ root ∈ roots, d.isDirectory (Path.absolute d.current root) = true) :
    create d roots = .ok { roots := roots.map (Path.absolute d.current) } := by
  have hnone : (roots.map (Path.absolute d.current)).find? (!d.isDirectory ·) = none := by
    simpa [List.find?_eq_none] using h
  simp only [create, hnone]

theorem create_eq_ok {d : Disk} {roots : List Text} {w : Workspace}
    (h : create d roots = .ok w) : w = { roots := roots.map (Path.absolute d.current) } := by
  simp only [create] at h
  split at h
  · cases h
  · cases h
    rfl

end Workspace

end RubyLanguageServer
