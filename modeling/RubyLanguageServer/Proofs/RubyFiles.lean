import RubyLanguageServer.Proofs.Definitions
import RubyLanguageServer.Proofs.Listing
/-!
# The Ruby files of a workspace

Below the roots stand trees of directories and regular files. The first listing of a workspace holds
the path of a file exactly if a root leads to it through directories that are searched and its name
has an extension of Ruby sources. The paths are in strictly ascending order, so neither the order
and repetition of the roots nor the order in which directories are listed can be seen in it.
-/
namespace RubyLanguageServer

namespace Path

abbrev dot : CodePoint := '.'

def below (directory : Text) (place : Place) : Text := place.foldl join directory

private theorem lastComponent_of_not_mem {name : Text} (h : slash ∉ name) : lastComponent name =
    name := by
  rw [lastComponent, List.takeWhile_eq_self_iff.mpr, List.reverse_reverse]
  intro c hc
  have hne : c ≠ slash := fun heq => h (heq ▸ List.mem_reverse.mp hc)
  simpa using hne

private theorem extension_append {stem ext : Text} (hslash : slash ∉ stem ++ dot :: ext)
    (hstem : ∃ c ∈ stem, c ≠ dot) (hext : dot ∉ ext) :
    extension (stem ++ dot :: ext) = dot :: ext := by
  have hne : stem.dropWhile (· = dot) ≠ [] := by
    simpa [List.dropWhile_eq_nil_iff] using hstem
  have hdrop : (stem ++ dot :: ext).dropWhile (· = dot) =
      stem.dropWhile (· = dot) ++ dot :: ext := by
    rw [List.dropWhile_append, if_neg (by simpa using hne)]
  have hlast (lead : Text) :
      (lead ++ dot :: ext).reverse.takeWhile (· ≠ dot) =
        ext.reverse := by
    rw [List.reverse_append, List.reverse_cons, List.append_assoc]
    apply Text.takeWhile_append
    · intro c hc
      have hc' : c ≠ dot := fun heq => hext (heq ▸ List.mem_reverse.mp hc)
      simpa using hc'
    · simp
  rw [extension, lastComponent_of_not_mem hslash]
  simp only [hdrop, hlast]
  simp

private theorem exists_of_extension_ne_nil {name : Text} (hslash : slash ∉ name)
    (h : extension name ≠ []) : ∃ stem ext : Text, name = stem ++ dot :: ext ∧
      (∃ c ∈ stem, c ≠ dot) ∧ dot ∉ ext := by
  rw [extension, lastComponent_of_not_mem hslash] at h
  have hdot : dot ∈ (name.dropWhile (· = dot)).reverse := by
    by_contra hnone
    simp_all
  -- The last dot is the first of the reversed name.
  obtain ⟨ext, lead, hname, hext⟩ := List.eq_append_cons_of_mem hdot
  have hdrop : name.dropWhile (· = dot) =
      lead.reverse ++ dot :: ext.reverse := by
    rw [← List.reverse_reverse (name.dropWhile _), hname]
    simp
  have hhead := Text.of_mem_head?_dropWhile (p := (· = dot)) (t := name)
  rw [hdrop] at hhead
  refine ⟨name.takeWhile (· = dot) ++ lead.reverse, ext.reverse, ?_, ?_, ?_⟩
  · rw [List.append_assoc, ← hdrop, List.takeWhile_append_dropWhile]
  · cases hlead : lead.reverse with
    | nil => simp [hlead] at hhead
    | cons c rest => exact ⟨c, by simp, by simpa [hlead] using hhead⟩
  · simpa using hext

end Path

namespace RubyFile

/-- The name ends in a dot and what makes it that of a Ruby source, in capital or small letters, and
not only dots stand before. -/
def Extended (name : Text) : Prop :=
  ∃ stem ext : Text, name = stem ++ Path.dot :: ext ∧ (∃ c ∈ stem, c ≠ Path.dot) ∧
    Path.dot ∉ ext ∧ (Path.dot :: ext).map smallLetter ∈ extensions

theorem isNamed_iff {name : Text} (hslash : Path.slash ∉ name) :
    isNamed name = true ↔ Extended name := by
  rw [isNamed, List.contains_iff_mem]
  constructor
  · intro h
    have hne : Path.extension name ≠ [] := by
      intro hnil
      rw [hnil] at h
      revert h
      decide
    obtain ⟨stem, ext, rfl, hstem, hext⟩ := Path.exists_of_extension_ne_nil hslash hne
    rw [Path.extension_append hslash hstem hext] at h
    exact ⟨stem, ext, rfl, hstem, hext, h⟩
  · rintro ⟨stem, ext, rfl, hstem, hext, h⟩
    rwa [Path.extension_append hslash hstem hext]

/-- A Ruby file at the place of a name in nested directories: a regular file with an extension of
Ruby sources, and all directories on the way to it are searched. -/
structure IsAt (entries : List (Text × Entry)) (directories : Place) (name : Text) : Prop where
  regular : ∃ content, Disk.entryAt (directories ++ [name]) entries = some (.file content)
  searched : ∀ directory ∈ directories, directory ∉ ignoredDirectories
  extended : Extended name

/-- The path is that of a Ruby file below a directory, in one whose path is short enough to be
opened. -/
def IsBelow (directory : Text) (entries : List (Text × Entry)) (path : Text) : Prop :=
  ∃ directories name, IsAt entries directories name ∧
    Utf8.size (Path.below directory directories) ≤ Disk.maxPath ∧
    path = Path.below directory (directories ++ [name])

end RubyFile

namespace Scan

open RubyFile

/-- The path is that of a Ruby file which an entry of a directory is or has below it. -/
def Gives (directory name path : Text) : Entry → Prop
  | .file _ => Extended name ∧ path = Path.join directory name
  | .directory inner =>
    name ∉ ignoredDirectories ∧ IsBelow (Path.join directory name) inner path
  | _ => False

end Scan

namespace Workspace

/-- Files in a directory that is passed over, unless it is itself a root. -/
def passed : List (Text × Entry) := [("job.RAKE", .file []), ("notes.txt", .file [])]

def shop : List (Text × Entry) :=
  [("tmp", .directory passed), (".rb", .file []), ("a.rb", .file [])]

end Workspace

end RubyLanguageServer
