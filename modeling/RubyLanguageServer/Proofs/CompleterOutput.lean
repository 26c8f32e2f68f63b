import RubyLanguageServer.Analysis.Candidate
import RubyLanguageServer.Proofs.CheckerOutput
/-!
# The output of the method completer, printed and read again

The completer prints one method on a line, with blanks around its name and its detail, and there may
be blank lines between. Reading its output gives back the methods as they were printed, in order.
-/
namespace RubyLanguageServer

namespace Text

open CodePoint (lineFeed carriageReturn)

instance (t : Text) : Decidable t.Blank :=
  inferInstanceAs (Decidable (∀ c ∈ t, c.isBlank = true))

private theorem blank_nil : Blank [] := List.forall_mem_nil _

private theorem unbroken_nil : Unbroken [] := List.forall_mem_nil _

theorem isBlank_iff {t : Text} : t.isBlank = true ↔ t.Blank := List.all_eq_true

private theorem Blank.append {s t : Text} (hs : s.Blank) (ht : t.Blank) : Blank (s ++ t) :=
  List.forall_mem_append.mpr ⟨hs, ht⟩

private theorem Blank.cons {c : CodePoint} {t : Text} (hc : c.isBlank = true) (ht : t.Blank) :
    Blank (c :: t) := List.forall_mem_cons.mpr ⟨hc, ht⟩

private theorem Blank.of_subset {s t : Text} (ht : t.Blank) (h : s ⊆ t) : s.Blank :=
  fun c hc => ht c (h hc)

private theorem Blank.trim_eq {t : Text} (h : t.Blank) : t.trim = [] := trimBy_append h []

theorem trim_between {before t behind : Text} (hbefore : before.Blank) (hbehind : behind.Blank)
    (ht : t.trim = t) : trim (before ++ t ++ behind) = t := by
  calc trim (before ++ t ++ behind)
      = trim (before ++ t) := trimBy_append hbehind (before ++ t)
    _ = trim t := by rw [trim, trimBy, List.dropWhile_append_of_pos hbefore, trim, trimBy]
    _ = t := ht

theorem trim_tail {t : Text} (h : ∀ c ∈ t.head?, c.isBlank = true) : trim (t.drop 1) = trim t := by
  cases t with
  | nil => rfl
  | cons c cs =>
    rw [trim, trimBy, trim, trimBy, List.dropWhile_cons_of_pos (h c rfl)]
    rfl

/-- A carriage return is a break of its own unless a line feed follows, which then is the break. -/
theorem lines_return (t : Text) :
    lines (carriageReturn :: t) = if t.head? = some lineFeed then lines t else [] :: lines t := by
  cases t with
  | nil =>
    rw [lines, lines]
    rfl
  | cons c cs =>
    rw [lines, if_pos rfl]
    by_cases hc : c = lineFeed
    · subst hc
      rw [lines.eq_def (lineFeed :: cs)]
      rfl
    · simp [hc]

/-- Blanks before a line feed are blank lines, whatever breaks they hold themselves. -/
theorem lines_blank {blanks : Text} (h : blanks.Blank) (rest : Text) :
    ∃ first more, lines (blanks ++ lineFeed :: rest) = first :: more ++ lines rest ∧
      ∀ line ∈ first :: more, line.Blank := by
  -- There is a first line, so that a character that is no break has a line to go to.
  induction blanks with
  | nil =>
    refine ⟨[], [], lines_append_feed unbroken_nil rest, ?_⟩
    exact List.forall_mem_singleton.mpr blank_nil
  | cons c cs ih =>
    obtain ⟨hc, hcs⟩ := List.forall_mem_cons.mp h
    obtain ⟨first, more, hlines, hblank⟩ := ih hcs
    rw [List.cons_append]
    by_cases hreturn : c = carriageReturn
    · rw [hreturn, lines_return, hlines]
      split
      · exact ⟨first, more, rfl, hblank⟩
      · refine ⟨[], first :: more, rfl, ?_⟩
        exact List.forall_mem_cons.mpr ⟨blank_nil, hblank⟩
    · rw [lines.eq_def]
      simp only [if_neg hreturn, hlines]
      split
      · refine ⟨[], first :: more, rfl, ?_⟩
        exact List.forall_mem_cons.mpr ⟨blank_nil, hblank⟩
      · obtain ⟨hfirst, hmore⟩ := List.forall_mem_cons.mp hblank
        exact ⟨c :: first, more, rfl, List.forall_mem_cons.mpr ⟨hfirst.cons hc, hmore⟩⟩

end Text

namespace Candidate

abbrev tab : CodePoint := CodePoint.ofChar '\t'

/-- A method to be printed. Its name holds no tab, but its detail may. -/
structure Offer where
  name : Text
  detail : Option Text
  name_ne_nil : name ≠ []
  name_trim : name.trim = name
  name_unbroken : name.Unbroken
  name_noTab : tab ∉ name
  detail_ne_nil : ∀ d ∈ detail, d ≠ []
  detail_trim : ∀ d ∈ detail, d.trim = d
  detail_unbroken : ∀ d ∈ detail, d.Unbroken

structure Padding where
  text : Text
  blank : text.Blank
  unbroken : text.Unbroken

def Padding.empty : Padding := ⟨[], Text.blank_nil, Text.unbroken_nil⟩

/-- A method with the blanks that are printed around its name and its detail. A tab among them is no
harm, unless it stands before the name. -/
structure Printed extends Offer where
  beforeName : Padding
  behindName : Padding
  beforeDetail : Padding
  behindDetail : Padding
  beforeName_noTab : tab ∉ beforeName.text

namespace Printed

def description (p : Printed) : Text :=
  match p.detail with
  | none => []
  | some d => tab :: (p.beforeDetail.text ++ d ++ p.behindDetail.text)

def line (p : Printed) : Text :=
  p.beforeName.text ++ p.name ++ (p.behindName.text ++ p.description)

end Printed

/-- What is printed on one line: a method, or blanks only. -/
inductive Item where
  | method (p : Printed)
  | blanks (text : Text) (h : text.Blank)

namespace Item

def text : Item → Text
  | .method p => p.line
  | .blanks text _ => text

def candidate? : Item → Option Candidate
  | .method p => some { name := p.name, detail := p.detail, kind := .methodName }
  | .blanks _ _ => none

def output (items : List Item) : Text := items.flatMap fun item => item.text ++ [CodePoint.lineFeed]

end Item

theorem isSome_ofLine? (line : Text) : (ofLine? line).isSome = !line.isBlank := by
  cases h : line.isBlank with
  | true =>
    rw [ofLine?, if_pos h]
    rfl
  | false =>
    rw [ofLine?, if_neg (by simp [h])]
    rfl

private theorem ofLine?_of_blank {line : Text} (h : line.Blank) : ofLine? line = none :=
  if_pos (Text.isBlank_iff.mpr h)

namespace Printed

variable (p : Printed)

private theorem isBlank_line : p.line.isBlank = false := by
  by_contra hline
  have hblank : p.line.Blank := Text.isBlank_iff.mp (eq_true_of_ne_false hline)
  have hname : p.name.Blank := by
    apply hblank.of_subset
    intro c hc
    simp [line, hc]
  exact p.name_ne_nil (p.name_trim.symm.trans hname.trim_eq)

theorem trim_description {blanks : Text} (h : blanks.Blank) :
    Text.trim (blanks ++ p.description) = p.detail.getD [] := by
  rw [description]
  cases hdetail : p.detail with
  | none => simpa using h.trim_eq
  | some d =>
    have hbefore : (blanks ++ tab :: p.beforeDetail.text).Blank :=
      h.append (p.beforeDetail.blank.cons (by decide))
    have htrim := Text.trim_between hbefore p.behindDetail.blank (p.detail_trim d hdetail)
    simpa using htrim

/-- The line falls into the name between blanks, without a tab, and what begins with a tab and has
the detail between blanks. -/
theorem exists_parts : ∃ gap tail : Text, gap.Blank ∧ tab ∉ p.beforeName.text ++ p.name ++ gap ∧
    (∀ c ∈ tail.head?, c = tab) ∧ p.line = p.beforeName.text ++ p.name ++ gap ++ tail ∧
    Text.trim tail = p.detail.getD [] := by
  let isPlain (c : CodePoint) : Bool := c ≠ tab
  -- The first tab behind the name counts, which need not be the one that was printed to part.
  refine ⟨p.behindName.text.takeWhile isPlain, p.behindName.text.dropWhile isPlain ++ p.description,
    ?_, ?_, ?_, ?_, ?_⟩
  · exact p.behindName.blank.of_subset (List.takeWhile_subset _)
  · have hgap : tab ∉ p.behindName.text.takeWhile isPlain :=
      fun hmem => absurd (List.mem_takeWhile_imp hmem) (by simp [isPlain])
    simp [p.beforeName_noTab, p.name_noTab, hgap]
  · intro c hc
    rw [List.head?_append, Option.mem_def, Option.or_eq_some_iff] at hc
    rcases hc with hc | ⟨-, hc⟩
    · simpa [isPlain] using Text.of_mem_head?_dropWhile c hc
    · rw [description] at hc
      split at hc
      · cases hc
      · exact (Option.some.inj hc).symm
  · have hsplit := List.takeWhile_append_dropWhile (p := isPlain) (l := p.behindName.text)
    conv_lhs => rw [line, ← hsplit]
    simp only [List.append_assoc]
  · exact p.trim_description (p.behindName.blank.of_subset (List.dropWhile_subset _))

theorem ofLine?_printed : ofLine? p.line = (Item.method p).candidate? := by
  obtain ⟨gap, tail, hgap, hnoTab, htail, hline, hdetail⟩ := p.exists_parts
  have hplain : ∀ c ∈ p.beforeName.text ++ p.name ++ gap, decide (c ≠ tab) = true := by
    intro c hc
    apply decide_eq_true
    rintro rfl
    exact hnoTab hc
  have hstop : ∀ c ∈ tail.head?, decide (c ≠ tab) = false := fun c hc => by simp [htail c hc]
  have hname : Text.trim (p.line.takeWhile (· ≠ tab)) = p.name := by
    rw [hline, Text.takeWhile_append hplain hstop]
    exact Text.trim_between p.beforeName.blank hgap p.name_trim
  have hdescription : Text.trim ((p.line.dropWhile (· ≠ tab)).drop 1) = p.detail.getD [] := by
    have hblank : ∀ c ∈ tail.head?, c.isBlank = true := fun c hc => htail c hc ▸ by decide
    rw [hline, Text.dropWhile_append hplain hstop, Text.trim_tail hblank, hdetail]
  rw [ofLine?, if_neg (by simp [p.isBlank_line])]
  simp only [hname, hdescription, Item.candidate?]
  cases h : p.detail with
  | none => rfl
  | some d =>
    obtain ⟨c, cs, rfl⟩ := List.exists_cons_of_ne_nil (p.detail_ne_nil d h)
    rfl

private theorem unbroken_line : p.line.Unbroken := by
  apply Text.Unbroken.append (p.beforeName.unbroken.append p.name_unbroken)
  apply Text.Unbroken.append p.behindName.unbroken
  rw [description]
  split
  · exact Text.unbroken_nil
  · rename_i d hd
    have hdetail : (p.beforeDetail.text ++ d ++ p.behindDetail.text).Unbroken :=
      (p.beforeDetail.unbroken.append (p.detail_unbroken d hd)).append p.behindDetail.unbroken
    exact List.forall_mem_cons.mpr ⟨by decide, hdetail⟩

end Printed

/-- The step of the reading: an item gives its candidate, and the rest is read as it would be
alone. -/
theorem ofOutput_item (item : Item) (rest : Text) :
    ofOutput (item.text ++ CodePoint.lineFeed :: rest) =
      item.candidate?.toList ++ ofOutput rest := by
  cases item with
  | method p =>
    rw [ofOutput, Item.text, Text.lines_append_feed p.unbroken_line, List.filterMap_cons,
      p.ofLine?_printed]
    rfl
  | blanks text h =>
    obtain ⟨first, more, hlines, hblank⟩ := Text.lines_blank h rest
    have hnothing : (first :: more).filterMap ofLine? = [] :=
      List.filterMap_eq_nil_iff.mpr fun line hline => ofLine?_of_blank (hblank line hline)
    rw [ofOutput, Item.text, hlines, List.filterMap_append, hnothing]
    rfl

private theorem ofOutput_items (items : List Item) :
    ofOutput (Item.output items) = items.filterMap Item.candidate? := by
  induction items with
  | nil => rfl
  | cons item items ih =>
    have houtput : Item.output (item :: items) =
        item.text ++ CodePoint.lineFeed :: Item.output items := by simp [Item.output]
    rw [houtput, ofOutput_item, ih, List.filterMap_cons]
    cases item.candidate? <;> rfl

/-- Reading the completer's output undoes printing it: the methods come back in order, each with its
name and its detail. Every output has as many candidates as it has lines that are not blank. -/
theorem methods_read_back :
    (∀ items : List Item, ofOutput (Item.output items) = items.filterMap Item.candidate?) ∧
    ∀ output : Text, (ofOutput output).length = (output.lines.filter (!·.isBlank)).length := by
  refine ⟨ofOutput_items, fun output => ?_⟩
  rw [ofOutput, List.length_filterMap_eq_countP, List.countP_eq_length_filter]
  simp only [isSome_ofLine?]

/-- A detail with a tab inside, tabs behind a name that has none, and a blank line with breaks of
its own. -/
def mixed : List Item := [
  .method {
    name := "upcase!", detail := some "String#\tupcase!"
    name_ne_nil := by decide, name_trim := by decide +kernel, name_unbroken := by decide
    name_noTab := by decide, detail_ne_nil := by decide, detail_trim := by decide +kernel
    detail_unbroken := by decide
    beforeName := ⟨" ", by decide, by decide⟩, behindName := ⟨"\t", by decide, by decide⟩
    beforeDetail := ⟨" \t", by decide, by decide⟩, behindDetail := .empty
    beforeName_noTab := by decide },
  .blanks "\t\r" (by decide),
  .method {
    name := "up to", detail := none
    name_ne_nil := by decide, name_trim := by decide +kernel, name_unbroken := by decide
    name_noTab := by decide, detail_ne_nil := by decide, detail_trim := by decide
    detail_unbroken := by decide
    beforeName := .empty, behindName := ⟨"\t\t", by decide, by decide⟩
    beforeDetail := .empty, behindDetail := .empty
    beforeName_noTab := by decide }]

theorem methods_read_back_mixed :
    ofOutput " upcase!\t\t \tString#\tupcase!\n\t\r\nup to\t\t\n" =
      [⟨"upcase!", some "String#\tupcase!", .methodName⟩, ⟨"up to", none, .methodName⟩] :=
  methods_read_back.1 mixed

end Candidate

end RubyLanguageServer
