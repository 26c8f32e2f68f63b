import RubyLanguageServer.Proofs.Definitions
/-!
# The path at the cursor

Up to the cursor a line ends in at most one constant path that is not itself the end of a longer run
of word characters and colons. This path is what is completed, and without it nothing is.
-/
namespace RubyLanguageServer

namespace Constant

/-- A character that can stand in a path: a word character or a colon. -/
def isPathPart (c : CodePoint) : Bool := c.isWord || c = ':'

/-- The text ends in the path, and the character before the path, if there is one, can stand in
none. -/
def EndsInPath (t path : Text) : Prop :=
  ∃ lead, t = lead ++ path ∧ Qualified path ∧ ∀ c ∈ lead.getLast?, isPathPart c = false

/-- The cursor's line is one of the text, and up to the cursor it ends in the path. -/
def PathAtCursor (t : Text) (line character : Int) (path : Text) : Prop :=
  ∃ l, 0 ≤ line ∧ t.lines[line.toNat]? = some l ∧ EndsInPath (l.take character.toNat) path

private theorem trailing_append {p : CodePoint → Bool} {lead run : Text}
    (hrun : ∀ c ∈ run, p c = true)
    (hlead : ∀ c ∈ lead.getLast?, p c = false) : trailing p (lead ++ run) = run := by
  rw [trailing, List.reverse_append, Text.takeWhile_append]
  · simp
  · simpa using hrun
  · simpa using hlead

private theorem exists_trailing (p : CodePoint → Bool) (t : Text) :
    ∃ lead, t = lead ++ trailing p t ∧ ∀ c ∈ lead.getLast?, p c = false := by
  refine ⟨(t.reverse.dropWhile p).reverse, ?_, ?_⟩
  · rw [trailing, ← List.reverse_append, List.takeWhile_append_dropWhile, List.reverse_reverse]
  · simpa using Text.of_mem_head?_dropWhile (t := t.reverse)

private theorem Qualified.isPathPart {t : Text} (h : Qualified t) : ∀ c ∈ t, isPathPart c = true :=
    by
  have hname {t : Text} (ht : IsName CodePoint.isWord t) :
      ∀ c ∈ t, Constant.isPathPart c = true := by
    intro c hc
    simp [Constant.isPathPart, ht.isWord c hc]
  induction h with
  | name ht => exact hname ht
  | inside ht _ ih =>
    simp only [List.mem_append, List.mem_cons]
    rintro c (hc | rfl | rfl | hc)
    · exact hname ht c hc
    · rfl
    · rfl
    · exact ih c hc

private theorem Qualified.longestPath {t : Text} (h : Qualified t) : LongestPath t [] := by
  refine ⟨h, ?_⟩
  intro more hmore _
  exact List.prefix_nil.mp hmore

theorem isPath_iff {t : Text} : isPath t = true ↔ Qualified t := by
  constructor
  · intro h
    unfold isPath at h
    split at h
    · rename_i name hpath
      obtain ⟨rfl, hlongest⟩ := path?_eq_some_iff.mp hpath
      simpa using hlongest.1
    · cases h
  · intro h
    have hpath : path? t = some (t, []) := path?_eq_some_iff.mpr ⟨by simp, h.longestPath⟩
    simp [isPath, hpath]

/-- The path in which a text ends is the whole run of the characters at its end that can stand in
one. So there is at most one. -/
theorem endsInPath_iff {t path : Text} :
    EndsInPath t path ↔ path = trailing isPathPart t ∧ Qualified path := by
  constructor
  · rintro ⟨lead, rfl, hpath, hlead⟩
    exact ⟨(trailing_append hpath.isPathPart hlead).symm, hpath⟩
  · rintro ⟨rfl, hpath⟩
    obtain ⟨lead, ht, hlead⟩ := exists_trailing isPathPart t
    exact ⟨lead, ht, hpath, hlead⟩

private theorem PathAtCursor.unique {t path path' : Text} {line character : Int}
    (h : PathAtCursor t line character path) (h' : PathAtCursor t line character path') :
    path = path' := by
  obtain ⟨l, _, hl, hpath⟩ := h
  obtain ⟨l', _, hl', hpath'⟩ := h'
  obtain rfl : l = l' := by simpa [hl] using hl'
  rw [(endsInPath_iff.mp hpath).1, (endsInPath_iff.mp hpath').1]

private theorem prefixAt_of_line {t l : Text} {line : Int} (hline : 0 ≤ line)
    (hl : t.lines[line.toNat]? = some l) (character : Int) : prefixAt t line character =
      let run := trailing isPathPart (l.take character.toNat)
      if isPath run then run else [] := by
  rw [prefixAt, if_neg (Int.not_lt.mpr hline), hl]
  rfl

theorem pathAtCursor_iff {t path : Text} {line character : Int} :
    PathAtCursor t line character path ↔ path ≠ [] ∧ prefixAt t line character = path := by
  constructor
  · rintro ⟨l, hline, hl, hends⟩
    obtain ⟨hrun, hpath⟩ := endsInPath_iff.mp hends
    refine ⟨?_, ?_⟩
    · obtain ⟨c, cs, rfl, _⟩ := hpath.exists_cons
      simp
    · rw [prefixAt_of_line hline hl, ← hrun]
      simp [isPath_iff.mpr hpath]
  · rintro ⟨hne, rfl⟩
    by_cases hline : 0 ≤ line
    · cases hl : t.lines[line.toNat]? with
      | none => simp [prefixAt, hl] at hne
      | some l =>
        refine ⟨l, hline, hl, ?_⟩
        rw [prefixAt_of_line hline hl] at hne ⊢
        by_cases hrun : isPath (trailing isPathPart (l.take character.toNat)) = true
        · simp only [hrun, if_true]
          exact endsInPath_iff.mpr ⟨rfl, isPath_iff.mp hrun⟩
        · simp [hrun] at hne
    · simp [prefixAt, Int.not_le.mp hline] at hne

/-- The prefix at the cursor is the path that ends there, and there is at most one; without a path
the prefix is empty. -/
theorem prefix_is_path_at_cursor (t : Text) (line character : Int) :
    (∀ path, path ≠ [] ∧ prefixAt t line character = path ↔
      PathAtCursor t line character path) ∧
    (∀ path path', PathAtCursor t line character path → PathAtCursor t line character path' →
      path = path') ∧
    ((∀ path, ¬PathAtCursor t line character path) ↔ prefixAt t line character = []) := by
  refine ⟨fun path => pathAtCursor_iff.symm, fun path path' => PathAtCursor.unique, ?_⟩
  constructor
  · intro hnone
    by_contra hne
    exact hnone _ (pathAtCursor_iff.mpr ⟨hne, rfl⟩)
  · intro hempty path hpath
    obtain ⟨hne, heq⟩ := pathAtCursor_iff.mp hpath
    exact hne (heq ▸ hempty)

/-- A path behind a double colon, and on the next line a path behind a bracket. -/
def calls : Text := "sum = ::Tax\r\nputs(Größe::Netto_2"

theorem prefix_is_path_at_cursor_calls :
    prefixAt calls 1 99 = "Größe::Netto_2" ∧ ∀ path, ¬PathAtCursor calls 0 11 path := by
  have hlines : calls.lines = [("sum = ::Tax" : Text), "puts(Größe::Netto_2"] := by decide +kernel
  have hpath : PathAtCursor calls 1 99 "Größe::Netto_2" := by
    refine ⟨"puts(Größe::Netto_2", by decide, by simp [hlines], "puts(", by decide +kernel, ?_, ?_⟩
    · have hfirst : IsName CodePoint.isWord "Größe" := by decide +kernel
      have hlast : IsName CodePoint.isWord "Netto_2" := by decide +kernel
      exact .inside hfirst (.name hlast)
    · decide +kernel
  obtain ⟨hpaths, _, _⟩ := prefix_is_path_at_cursor calls 1 99
  obtain ⟨_, _, hempty⟩ := prefix_is_path_at_cursor calls 0 11
  exact ⟨((hpaths _).mpr hpath).2, hempty.mpr (by cbv)⟩

end Constant

end RubyLanguageServer
