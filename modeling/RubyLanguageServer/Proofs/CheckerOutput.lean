import RubyLanguageServer.Analysis.Issue
import RubyLanguageServer.Proofs.Definitions
import RubyLanguageServer.Proofs.Framing
/-!
# The output of the syntax checker, printed and read again

The checker prints one issue on a line, with other lines between them that begin with no location.
Reading its output gives back the issues as they were printed, in order, and nothing for the other
lines.
-/
namespace RubyLanguageServer

namespace CodePoint

private theorem isDecimal_of_isDigit {c : CodePoint} (h : c.isDigit = true) : c.isDecimal = true :=
    by
  have hrange := h
  simp only [isDigit, Bool.and_eq_true, decide_eq_true_eq] at hrange
  have hascii : c.val < 0x80 := by omega
  simp [isDecimal, decimalValue?, hascii, h]

end CodePoint

namespace Text

open CodePoint (lineFeed carriageReturn)

/-- A text within one line. -/
def Unbroken (t : Text) : Prop := ∀ c ∈ t, c.isBreak = false

instance (t : Text) : Decidable t.Unbroken :=
  inferInstanceAs (Decidable (∀ c ∈ t, c.isBreak = false))

theorem Unbroken.append {s t : Text} (hs : s.Unbroken) (ht : t.Unbroken) : Unbroken (s ++ t) :=
  List.forall_mem_append.mpr ⟨hs, ht⟩

theorem lines_append_feed {line : Text} (h : line.Unbroken) (rest : Text) :
    lines (line ++ lineFeed :: rest) = line :: lines rest := by
  induction line with
  | nil =>
    rw [List.nil_append, lines.eq_def]
    rfl
  | cons c cs ih =>
    obtain ⟨hc, hcs⟩ := List.forall_mem_cons.mp h
    have hreturn : c ≠ carriageReturn := by
      rintro rfl
      exact absurd hc (by decide)
    rw [List.cons_append, lines.eq_def]
    simp only [if_neg hreturn, hc, Bool.false_eq_true, if_false, ih hcs]

theorem lines_flatMap_feed {ls : List Text} (h : ∀ l ∈ ls, l.Unbroken) :
    lines (ls.flatMap (· ++ [lineFeed])) = ls := by
  induction ls with
  | nil => rw [List.flatMap_nil, lines]
  | cons l ls ih =>
    obtain ⟨hl, hls⟩ := List.forall_mem_cons.mp h
    rw [List.flatMap_cons, List.append_assoc, List.singleton_append, lines_append_feed hl, ih hls]

theorem after?_eq_none_iff {t start : Text} : t.after? start = none ↔ ¬start <+: t := by
  constructor
  · rintro h ⟨rest, rfl⟩
    simp [after?_append] at h
  · intro h
    cases hrest : t.after? start with
    | none => rfl
    | some rest => exact absurd ⟨rest, (Json.eq_append_of_after? hrest).symm⟩ h

theorem dropWhile_of_trim {t : Text} (h : t.trim = t) : t.dropWhile CodePoint.isBlank = t := by
  have hsuffix := List.dropWhile_suffix (l := t) CodePoint.isBlank
  have hle : t.length ≤ (t.dropWhile CodePoint.isBlank).length := by
    have hend := List.dropWhile_suffix (l := (t.dropWhile CodePoint.isBlank).reverse)
      CodePoint.isBlank
    calc t.length = t.trim.length := by rw [h]
      _ ≤ (t.dropWhile CodePoint.isBlank).length := by simpa [trim, trimBy] using hend.length_le
  exact hsuffix.eq_of_length_le hle

end Text

namespace Issue

/-- The line begins with a location: the digits of a line's number, of whatever script, between
fixed marks. -/
structure Located (line digits rest : Text) : Prop where
  text : line = "-:" ++ digits ++ CodePoint.ofChar ':' :: rest
  ne_nil : digits ≠ []
  isDecimal : ∀ c ∈ digits, c.isDecimal = true

theorem location?_eq_some_iff {line digits rest : Text} :
    location? line = some (digits, rest) ↔ Located line digits rest := by
  constructor
  · intro h
    unfold location? at h
    cases hbehind : line.after? "-:" with
    | none => simp [hbehind] at h
    | some behind =>
      have hline := Json.eq_append_of_after? hbehind
      have hsplit := List.takeWhile_append_dropWhile (p := CodePoint.isDecimal) (l := behind)
      simp only [hbehind, Option.bind_eq_bind, Option.bind_some] at h
      split at h
      · rename_i d ds c cs hdigits hrest
        split at h
        · rename_i hc
          cases h
          refine ⟨?_, by simp, ?_⟩
          · rw [hline, ← hsplit, hdigits, hrest, hc, List.append_assoc]
          · rw [← hdigits]
            exact fun e he => List.mem_takeWhile_imp he
        · cases h
      · cases h
  · rintro ⟨rfl, hne, hdecimal⟩
    have hcolon : ∀ c ∈ (CodePoint.ofChar ':' :: rest).head?, c.isDecimal = false := by
      simp only [List.head?_cons, Option.mem_some_iff, forall_eq']
      decide
    rw [location?, List.append_assoc, Text.after?_append]
    simp only [Option.bind_eq_bind, Option.bind_some, Text.takeWhile_append hdecimal hcolon,
      Text.dropWhile_append hdecimal hcolon]
    obtain ⟨d, ds, rfl⟩ := List.exists_cons_of_ne_nil hne
    simp

/-- An issue to be printed: the digits of its line's number, counted from one, whether it is a
warning, and its message, which must not look like a warning's if it is none. -/
structure Report where
  digits : Text
  isWarning : Bool
  message : Text
  ne_nil : digits ≠ []
  isDigit : ∀ c ∈ digits, c.isDigit = true
  length_le : digits.length ≤ 4300
  trim_eq : message.trim = message
  unbroken : message.Unbroken
  unmarked : isWarning = false → ¬Text.ofString "warning:" <+: message

structure Excerpt where
  text : Text
  unbroken : text.Unbroken
  not_located : ∀ digits rest, ¬Located text digits rest

inductive Item where
  | report (r : Report)
  | excerpt (e : Excerpt)

def Report.mark (r : Report) : Text := if r.isWarning then "warning: " else []

namespace Item

def line : Item → Text
  | .report r => "-:" ++ r.digits ++ ": " ++ r.mark ++ r.message
  | .excerpt e => e.text

/-- The issue that the item reports, its line counted from zero. -/
def issue? : Item → Option Issue
  | .report r =>
    some { message := r.message, line := max ((decimal r.digits : Int) - 1) 0,
           isWarning := r.isWarning }
  | .excerpt _ => none

def output (items : List Item) : Text := items.flatMap fun item => item.line ++ [CodePoint.lineFeed]

end Item

private theorem ofLine?_of_warning {line digits rest message : Text} {n : Nat}
    (h : Located line digits rest) (hn : Numeral.read digits = .ok n)
    (hrest : Text.after? (rest.dropWhile CodePoint.isBlank) "warning:" = some message) :
    ofLine? line = some (.ok ⟨message.trim, max ((n : Int) - 1) 0, true⟩) := by
  rw [ofLine?, location?_eq_some_iff.mpr h]
  simp only [Option.bind_eq_bind, Option.bind_some, hn, hrest]
  rfl

private theorem ofLine?_of_error {line digits rest : Text} {n : Nat} (h : Located line digits rest)
    (hn : Numeral.read digits = .ok n)
    (hrest : Text.after? (rest.dropWhile CodePoint.isBlank) "warning:" = none) :
    ofLine? line = some (.ok
      ⟨Text.trim (rest.dropWhile CodePoint.isBlank), max ((n : Int) - 1) 0, false⟩) := by
  rw [ofLine?, location?_eq_some_iff.mpr h]
  simp only [Option.bind_eq_bind, Option.bind_some, hn, hrest]
  rfl

private theorem ofLine?_of_not_located {line : Text}
    (h : ∀ digits rest, ¬Located line digits rest) :
    ofLine? line = none := by
  cases hlocation : location? line with
  | none => simp [ofLine?, hlocation]
  | some found => exact absurd (location?_eq_some_iff.mp hlocation) (h found.1 found.2)

namespace Report

private theorem located (r : Report) : Located (Item.report r).line r.digits
    (CodePoint.ofChar ' ' :: (r.mark ++ r.message)) := by
  refine ⟨?_, r.ne_nil, fun c hc => CodePoint.isDecimal_of_isDigit (r.isDigit c hc)⟩
  simp [Item.line, Text.ofString]

private theorem read_digits (r : Report) : Numeral.read r.digits = .ok (decimal r.digits) := by
  have hle : r.digits.length ≤ Numeral.limit := r.length_le
  rw [Numeral.read, if_pos hle, value_eq_decimal r.isDigit]

private theorem unbroken_digits (r : Report) : r.digits.Unbroken := by
  intro c hc
  have hdigit := r.isDigit c hc
  simp only [CodePoint.isDigit, Bool.and_eq_true, decide_eq_true_eq] at hdigit
  simp only [CodePoint.isBreak, Bool.or_eq_false_iff, Bool.and_eq_false_iff,
    decide_eq_false_iff_not, beq_eq_false_iff_ne]
  omega

private theorem unbroken_mark (r : Report) : r.mark.Unbroken := by
  cases h : r.isWarning <;> simp only [mark, h] <;> decide

theorem ofLine?_line (r : Report) : ofLine? (Item.report r).line =
    some (.ok ⟨r.message, max ((decimal r.digits : Int) - 1) 0, r.isWarning⟩) := by
  have hlocated := r.located
  have hmessage := Text.dropWhile_of_trim r.trim_eq
  cases hwarning : r.isWarning with
  | true =>
    rw [mark, hwarning, if_pos rfl] at hlocated
    -- Of the blanks behind the mark one is left to the trimming.
    have hrest : Text.after? (List.dropWhile CodePoint.isBlank
        (CodePoint.ofChar ' ' :: (Text.ofString "warning: " ++ r.message))) "warning:" =
        some (CodePoint.ofChar ' ' :: r.message) := rfl
    have htrim : Text.trim (CodePoint.ofChar ' ' :: r.message) = r.message := r.trim_eq
    rw [ofLine?_of_warning hlocated r.read_digits hrest, htrim]
  | false =>
    rw [mark, hwarning, if_neg (by decide), List.nil_append] at hlocated
    have hbody : List.dropWhile CodePoint.isBlank (CodePoint.ofChar ' ' :: r.message) =
        r.message := hmessage
    have hrest : Text.after? (List.dropWhile CodePoint.isBlank (CodePoint.ofChar ' ' :: r.message))
        "warning:" = none := by
      rw [hbody]
      exact Text.after?_eq_none_iff.mpr (r.unmarked hwarning)
    rw [ofLine?_of_error hlocated r.read_digits hrest, hbody, r.trim_eq]

end Report

namespace Item

private theorem unbroken_line (item : Item) : item.line.Unbroken := by
  cases item with
  | excerpt e => exact e.unbroken
  | report r =>
    apply Text.Unbroken.append ?_ r.unbroken
    apply Text.Unbroken.append ?_ r.unbroken_mark
    apply Text.Unbroken.append ?_ (by decide)
    exact Text.Unbroken.append (by decide) r.unbroken_digits

private theorem ofLine?_line (item : Item) : ofLine? item.line = item.issue?.map .ok := by
  cases item with
  | report r => exact r.ofLine?_line
  | excerpt e => exact ofLine?_of_not_located e.not_located

end Item

private theorem ofLines_map_line (items : List Item) :
    ofLines (items.map Item.line) = .ok (items.filterMap Item.issue?) := by
  induction items with
  | nil => rfl
  | cons item items ih =>
    rw [List.map_cons, ofLines, Item.ofLine?_line, List.filterMap_cons]
    cases item.issue? with
    | none => simpa using ih
    | some issue => simp [ih, bind, Except.bind, pure, Except.pure]

/-- Reading the checker's output undoes printing it: the issues come back in order, each with its
line counted from zero, and the other lines give nothing. -/
theorem output_reads_back (items : List Item) :
    ofOutput (Item.output items) = .ok (items.filterMap Item.issue?) := by
  have hlines : Text.lines (Item.output items) = items.map Item.line := by
    have hunbroken : ∀ l ∈ items.map Item.line, l.Unbroken := by
      simpa using fun item _ => item.unbroken_line
    rw [← Text.lines_flatMap_feed hunbroken, List.flatMap_map]
    rfl
  rw [ofOutput, hlines, ofLines_map_line]

/-- A warning whose message looks like an issue itself, a line that lacks the second mark of a
location, and an issue without a message on no line. -/
def mixed : List Item := [
  .report ⟨"007", true, "warning: -:3: end", by decide, by decide, by decide, by decide +kernel,
    by decide, by decide⟩,
  .excerpt ⟨"-:٣ | end", by decide, fun digits rest h => by
    have hnone : location? "-:٣ | end" = none := by decide +kernel
    simp [location?_eq_some_iff.mpr h] at hnone⟩,
  .report ⟨"0", false, [], by decide, by decide, by decide, by decide, by decide, by decide⟩]

theorem output_reads_back_mixed :
    ofOutput "-:007: warning: warning: -:3: end\n-:٣ | end\n-:0: \n" =
      .ok [⟨"warning: -:3: end", 6, true⟩, ⟨[], 0, false⟩] :=
  output_reads_back mixed

end Issue

end RubyLanguageServer
