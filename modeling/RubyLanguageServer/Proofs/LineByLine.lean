import RubyLanguageServer.Proofs.Definitions
import RubyLanguageServer.Proofs.Headers
import RubyLanguageServer.Proofs.Paths
/-!
# Constants, line by line

Blanks in a definition may reach over line ends, but only behind a line that holds nothing but the
head of a definition. In a text without such lines the constants are those of its lines, each of
which defines one at most.
-/
namespace RubyLanguageServer

private theorem Text.joinWith_splitOn (sep : CodePoint) (t : Text) :
    joinWith [sep] (splitOn sep t) = t := by
  induction t with
  | nil => rfl
  | cons c t ih =>
    rw [splitOn]
    cases hsplit : splitOn sep t with
    | nil =>
      rw [hsplit, joinWith] at ih
      subst ih
      cases hsplit
    | cons part parts =>
      rw [hsplit] at ih
      by_cases hc : c = sep
      · rw [if_pos hc, joinWith, ih, hc]
        rfl
      · rw [if_neg hc]
        subst ih
        cases parts <;> rfl

namespace Constant

open CodePoint (lineFeed)

/-- A word that begins a definition, or a name in capitals: what a definition has before blanks. -/
def IsHead (t : Text) : Prop := IsKeyword t ∨ IsName isCapitalPart t

instance (t : Text) : Decidable (IsHead t) := inferInstanceAs (Decidable (_ ∨ _))

theorem Definition.isHead {head gap tail name behind : Text}
    (h : Definition head gap tail name behind) : IsHead head := by
  cases h with
  | declared hkeyword => exact .inl hkeyword
  | assigned hname => exact .inr hname

private theorem trim_of_solid {indent t gap : Text} (hindent : indent.Blank) (ht : Solid t)
    (hgap : gap.Blank) : Text.trim (indent ++ t ++ gap) = t := by
  obtain ⟨hne, hblank⟩ := ht
  have hfirst : ∀ c ∈ t.head?, c.isBlank = false := fun c hc => hblank c (List.mem_of_mem_head? hc)
  have hlast : ∀ c ∈ t.reverse.head?, c.isBlank = false :=
    fun c hc => hblank c (List.mem_reverse.mp (List.mem_of_mem_head? hc))
  rw [Text.trim, Text.trimBy_append hgap, Text.trimBy, Text.dropWhile_append hindent hfirst,
    dropWhile_isBlank hlast, List.reverse_reverse]

private theorem covers_append_cons (t next : Text) {c : CodePoint} (hc : c.isBlank = true) :
    Covers t (t ++ c :: next) := by
  rintro part hpart ⟨rest, htext⟩
  have hnot : c ∉ part := by
    intro hmem
    simp [hpart c hmem] at hc
  obtain ⟨more, rfl, -⟩ := Text.exists_behind hnot htext
  exact List.prefix_append part more

theorem lineFeed_not_mem {t : Text} (ht : Solid t) : lineFeed ∉ t := by
  intro hmem
  have hblank := ht.2 lineFeed hmem
  simp [CodePoint.isBlank_lineFeed] at hblank

/-- A definition that begins on a line is one of the line alone, or the line is its head and
blanks. -/
theorem Defines.of_append {line next name behind : Text} (hline : lineFeed ∉ line)
    (h : Defines (line ++ lineFeed :: next) name behind) :
    (∃ behind', Defines line name behind') ∨
      ∃ head gap : Text, IsHead head ∧ Solid head ∧ gap.Blank ∧ line = head ++ gap := by
  obtain ⟨head, gap, tail, hdefinition, htext⟩ := h
  rw [eq_comm, List.append_assoc, List.append_assoc] at htext
  obtain ⟨rest, rfl, hrest⟩ :=
    Text.exists_behind (lineFeed_not_mem hdefinition.solid_head) htext
  by_cases hgap : lineFeed ∈ gap
  · right
    obtain ⟨before, after, rfl, hbefore⟩ := List.eq_append_cons_of_mem hgap
    rw [List.append_assoc] at hrest
    obtain ⟨more, rfl, hmore⟩ := Text.exists_behind hbefore hrest
    cases more with
    | nil =>
      refine ⟨head, before, hdefinition.isHead, hdefinition.solid_head, ?_, by simp⟩
      intro c hc
      exact hdefinition.blank_gap c (List.mem_append_left _ hc)
    | cons d more =>
      obtain ⟨rfl, -⟩ := List.cons.inj hmore
      simp at hline
  · left
    obtain ⟨rest, rfl, htail⟩ := Text.exists_behind hgap hrest
    obtain ⟨behind', rfl, rfl⟩ := Text.exists_behind (lineFeed_not_mem hdefinition.solid_tail) htail
    refine ⟨behind', head, gap, tail, hdefinition.of_covers ?_, by simp⟩
    intro part _ hpart
    exact hpart.trans (List.prefix_append behind' _)

private theorem Defines.append {line name behind : Text} (h : Defines line name behind)
    (next : Text) :
    Defines (line ++ lineFeed :: next) name (behind ++ lineFeed :: next) := by
  obtain ⟨head, gap, tail, hdefinition, rfl⟩ := h
  refine ⟨head, gap, tail, hdefinition.of_covers ?_, by simp⟩
  exact covers_append_cons behind next CodePoint.isBlank_lineFeed

private theorem Defines.lineFeed_not_mem {line name behind : Text} (h : Defines line name behind)
    (hline : lineFeed ∉ line) : lineFeed ∉ behind := by
  obtain ⟨head, gap, tail, -, rfl⟩ := h
  intro hmem
  exact hline (List.mem_append_right _ hmem)

theorem namesIn_line {line : Text} (hline : lineFeed ∉ line)
    (hhead : ∀ c ∈ line.head?, c.isBlank = false) :
    (∃ name behind, Defines line name behind ∧ namesIn line = [name]) ∨
      (∀ name behind, ¬Defines line name behind) ∧ namesIn line = [] := by
  by_cases h : ∃ name behind, Defines line name behind
  · obtain ⟨name, behind, hdefines⟩ := h
    left
    refine ⟨name, behind, hdefines, ?_⟩
    rw [namesIn_of_defines hdefines, behindLine_of_not_mem (hdefines.lineFeed_not_mem hline),
      namesIn_nil]
  · right
    simp only [not_exists] at h
    rw [namesIn_of_not_defines hhead h, behindLine_of_not_mem hline, namesIn_nil]
    exact ⟨h, rfl⟩

theorem exists_indent (t : Text) : ∃ indent body : Text, indent.Blank ∧
    (∀ c ∈ body.head?, c.isBlank = false) ∧ t = indent ++ body :=
  ⟨_, _, fun _ hc => List.mem_takeWhile_imp hc, Text.of_mem_head?_dropWhile,
    List.takeWhile_append_dropWhile.symm⟩

/-- A line counts on its own unless it is the head of a definition. -/
theorem namesIn_append_feed {line : Text} (hline : lineFeed ∉ line) (hopen : ¬IsHead line.trim)
    (next : Text) : namesIn (line ++ lineFeed :: next) = namesIn line ++ namesIn next := by
  obtain ⟨indent, body, hindent, hbody, rfl⟩ := exists_indent line
  have hfeed : lineFeed ∉ body := fun hmem => hline (List.mem_append_right indent hmem)
  rw [List.append_assoc, namesIn_append hindent, namesIn_append hindent]
  cases body with
  | nil =>
    have hblank : Text.Blank [lineFeed] :=
      List.forall_mem_singleton.mpr CodePoint.isBlank_lineFeed
    rw [namesIn_nil]
    exact namesIn_append hblank next
  | cons c body =>
    rcases namesIn_line hfeed hbody with ⟨name, behind, hdefines, hnames⟩ | ⟨hnone, hnames⟩
    · rw [namesIn_of_defines (hdefines.append next),
        behindLine_append (hdefines.lineFeed_not_mem hfeed), hnames, List.singleton_append]
    · have hnone' : ∀ name behind, ¬Defines (c :: body ++ lineFeed :: next) name behind := by
        intro name behind hdefines
        rcases hdefines.of_append hfeed with
          ⟨behind', hline⟩ | ⟨head, gap, hhead, hsolid, hgap, heq⟩
        · exact hnone name behind' hline
        · rw [heq, ← List.append_assoc, trim_of_solid hindent hsolid hgap] at hopen
          exact hopen hhead
      rw [namesIn_of_not_defines (by simpa using hbody) hnone', behindLine_append hfeed, hnames,
        List.nil_append]

private theorem namesIn_joinWith {lines : List Text}
    (hlines : ∀ line ∈ lines, lineFeed ∉ line ∧ ¬IsHead line.trim) :
    namesIn (Text.joinWith [lineFeed] lines) = lines.flatMap namesIn := by
  induction lines with
  | nil => exact namesIn_nil
  | cons line lines ih =>
    obtain ⟨⟨hline, hopen⟩, hlines⟩ := List.forall_mem_cons.mp hlines
    cases lines with
    | nil => simp [Text.joinWith]
    | cons next lines =>
      rw [Text.joinWith, List.append_assoc, List.singleton_append, namesIn_append_feed hline hopen,
        ih hlines, ← List.flatMap_cons]

/-- In a text without a line that is, but for blanks, the head of a definition, the constants are
those of the lines one after another. A line defines one constant at most, namely the one of the
definition that it begins with behind blanks. -/
theorem names_line_by_line {t : Text} (hlines : ∀ line ∈ t.splitOn lineFeed, ¬IsHead line.trim) :
    namesIn t = (t.splitOn lineFeed).flatMap namesIn ∧
    ∀ line ∈ t.splitOn lineFeed, (namesIn line).length ≤ 1 ∧
      ∀ name, name ∈ namesIn line ↔
        ∃ indent body behind : Text, indent.Blank ∧ line = indent ++ body ∧
          Defines body name behind := by
  have hfeed : ∀ line ∈ t.splitOn lineFeed, lineFeed ∉ line :=
    fun line hline => Text.not_mem_of_mem_splitOn hline
  constructor
  · have hjoined := namesIn_joinWith fun line hline => ⟨hfeed line hline, hlines line hline⟩
    rwa [Text.joinWith_splitOn] at hjoined
  · intro line hline
    obtain ⟨indent, body, hindent, hbody, rfl⟩ := exists_indent line
    have hbodyFeed : lineFeed ∉ body := fun hmem => hfeed _ hline (List.mem_append_right _ hmem)
    rw [namesIn_append hindent]
    have hcases := namesIn_line hbodyFeed hbody
    refine ⟨?_, fun name => ⟨fun hname => ?_, ?_⟩⟩
    · rcases hcases with ⟨name, behind, -, hnames⟩ | ⟨-, hnames⟩ <;> simp [hnames]
    · rcases hcases with ⟨name', behind, hdefines, hnames⟩ | ⟨-, hnames⟩
      · obtain rfl : name = name' := by simpa [hnames] using hname
        exact ⟨indent, body, behind, hindent, rfl, hdefines⟩
      · simp [hnames] at hname
    · rintro ⟨indent', body', behind, hindent', htext, hdefines⟩
      rw [← namesIn_append hindent, htext, namesIn_append hindent', namesIn_of_defines hdefines]
      exact List.mem_cons_self

/-- Definitions with blank lines and a comparison between them. -/
def shop : Text :=
  "module Shop\n\n  class Order < Base\n    TAX_RATE =\n      0.2\n" ++
    "    STATUS == other\n  end\nend\n \n class Shop::Invoice:: end\n"

theorem names_line_by_line_shop :
    (∀ line ∈ shop.splitOn lineFeed, ¬IsHead line.trim) ∧
    namesIn shop = [("Shop" : Text), "Order", "TAX_RATE", "Shop::Invoice"] := by
  have hlines : ∀ line ∈ shop.splitOn lineFeed, ¬IsHead line.trim := by decide +kernel
  refine ⟨hlines, ?_⟩
  rw [(names_line_by_line hlines).1]
  decide +kernel

end Constant

end RubyLanguageServer
