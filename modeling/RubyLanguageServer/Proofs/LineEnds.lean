import RubyLanguageServer.Proofs.FirstLook
import RubyLanguageServer.Proofs.LineByLine
import RubyLanguageServer.Proofs.Portable
import RubyLanguageServer.Proofs.Utf8Forms
/-!
# Line ends and constants

The text of a file has line feeds where the file has carriage returns before them. The constants of
a text do not depend on these returns: blanks may be other blanks, and a line ends at its line feed
either way. So a file defines the same constants on disk and as an open document.
-/
namespace RubyLanguageServer

open CodePoint (lineFeed carriageReturn)

namespace CodePoint

private theorem lineFeed_ne_return : lineFeed ≠ carriageReturn := by decide

private theorem ne_return {c : CodePoint} (hc : c.isBlank = false) : c ≠ carriageReturn := by
  have hreturn : carriageReturn.isBlank = true := by decide
  intro heq
  simp [heq, hreturn] at hc

end CodePoint

namespace Text

/-- Every carriage return is followed by a line feed. -/
def Paired : Text → Prop
  | [] => True
  | c :: t => (c = carriageReturn → t.head? = some lineFeed) ∧ Paired t

instance decidablePaired : (t : Text) → Decidable t.Paired
  | [] => isTrue trivial
  | _ :: t =>
    have := decidablePaired t
    inferInstanceAs (Decidable (_ ∧ _))

private theorem Paired.of_append {part rest : Text} (h : Paired (part ++ rest)) : rest.Paired := by
  induction part with
  | nil => exact h
  | cons c part ih => exact ih h.2

def withoutReturns (t : Text) : Text := t.filter (· ≠ carriageReturn)

private theorem withoutReturns_append (part rest : Text) :
    withoutReturns (part ++ rest) = withoutReturns part ++ withoutReturns rest :=
  List.filter_append part rest

private theorem withoutReturns_cons_of_ne {c : CodePoint} (hc : c ≠ carriageReturn) (t : Text) :
    withoutReturns (c :: t) = c :: withoutReturns t := List.filter_cons_of_pos (by simpa using hc)

private theorem withoutReturns_return (t : Text) :
    withoutReturns (carriageReturn :: t) = withoutReturns t := List.filter_cons_of_neg (by simp)

private theorem withoutReturns_eq_self {t : Text} (h : ∀ c ∈ t, c.isBlank = false) :
    withoutReturns t = t := by
  rw [withoutReturns, List.filter_eq_self]
  intro c hc
  exact decide_eq_true (CodePoint.ne_return (h c hc))

private theorem Blank.withoutReturns {t : Text} (h : t.Blank) : (withoutReturns t).Blank :=
  fun c hc => h c (List.mem_of_mem_filter hc)

private theorem head?_withoutReturns {t : Text} (h : ∀ c ∈ t.head?, c.isBlank = false) :
    ∀ c ∈ (withoutReturns t).head?, c.isBlank = false := by
  cases t with
  | nil => exact h
  | cons c t =>
    rw [withoutReturns_cons_of_ne (CodePoint.ne_return (h c rfl))]
    simpa using h

theorem unifyNewlines_eq {t : Text} (h : t.Paired) : t.unifyNewlines = withoutReturns t := by
  fun_induction unifyNewlines t with
  | case1 => rfl
  | case2 => cases h.1 rfl
  | case3 t ih =>
    rw [withoutReturns_return, withoutReturns_cons_of_ne CodePoint.lineFeed_ne_return, ih h.2.2]
  | case4 d t hd => exact absurd (Option.some.inj (h.1 rfl)) hd
  | case5 c t hc ih => rw [withoutReturns_cons_of_ne hc, ih h.2]

/-- What begins a text without its returns, up to a blank, begins the text itself. -/
theorem exists_of_withoutReturns {t part rest : Text} (ht : t.Paired)
    (hpart : ∀ c ∈ part, c.isBlank = false) (h : withoutReturns t = part ++ rest) :
    ∃ rest', t = part ++ rest' ∧ withoutReturns rest' = rest := by
  induction part generalizing t with
  | nil => exact ⟨t, rfl, h⟩
  | cons c part ih =>
    rw [List.forall_mem_cons] at hpart
    cases t with
    | nil => cases h
    | cons d t =>
      by_cases hd : d = carriageReturn
      · obtain ⟨t, rfl⟩ := List.head?_eq_some_iff.mp (ht.1 hd)
        rw [hd, withoutReturns_return, withoutReturns_cons_of_ne CodePoint.lineFeed_ne_return] at h
        obtain ⟨rfl, -⟩ := List.cons.inj h
        simp [CodePoint.isBlank_lineFeed] at hpart
      · rw [withoutReturns_cons_of_ne hd] at h
        obtain ⟨rfl, hmore⟩ := List.cons.inj h
        obtain ⟨rest', rfl, hrest⟩ := ih ht.2 hpart.2 hmore
        exact ⟨rest', rfl, hrest⟩

/-- Blanks before a character that is none are not returns only. -/
theorem withoutReturns_ne_nil {gap rest : Text} (h : Paired (gap ++ rest))
    (hrest : ∀ c ∈ rest.head?, c.isBlank = false) (hne : gap ≠ []) : withoutReturns gap ≠ [] := by
  cases gap with
  | nil => exact hne
  | cons c gap =>
    by_cases hc : c = carriageReturn
    · have hfeed := h.1 hc
      cases gap with
      | nil =>
        have hblank := hrest lineFeed hfeed
        simp [CodePoint.isBlank_lineFeed] at hblank
      | cons d gap =>
        obtain rfl : d = lineFeed := by simpa using hfeed
        simp [hc, withoutReturns_return, withoutReturns_cons_of_ne CodePoint.lineFeed_ne_return]
    · simp [withoutReturns_cons_of_ne hc]

end Text

namespace Constant

open Text (withoutReturns)

private theorem covers_withoutReturns {t : Text} (h : t.Paired) : Covers t (withoutReturns t) := by
  rintro part hpart ⟨rest, hrest⟩
  obtain ⟨rest', rfl, -⟩ := Text.exists_of_withoutReturns h hpart hrest.symm
  exact List.prefix_append part rest'

private theorem withoutReturns_covers (t : Text) : Covers (withoutReturns t) t := by
  rintro part hpart ⟨rest, rfl⟩
  rw [Text.withoutReturns_append, Text.withoutReturns_eq_self hpart]
  exact List.prefix_append part _

private theorem Definition.replace_gap {head gap gap' tail name behind : Text}
    (h : Definition head gap tail name behind) (hblank : gap'.Blank) (hne : gap ≠ [] → gap' ≠ []) :
    Definition head gap' tail name behind := by
  cases h with
  | declared hkeyword _ hgap hlongest => exact .declared hkeyword hblank (hne hgap) hlongest
  | assigned hname _ hrest => exact .assigned hname hblank hrest

theorem defines_withoutReturns_iff {t name behind : Text} (ht : t.Paired) :
    Defines (withoutReturns t) name behind ↔
      ∃ behind', Defines t name behind' ∧ withoutReturns behind' = behind := by
  constructor
  · rintro ⟨head, gap, tail, hdefinition, htext⟩
    rw [List.append_assoc, List.append_assoc] at htext
    obtain ⟨rest, rfl, hrest⟩ := Text.exists_of_withoutReturns ht hdefinition.solid_head.2 htext
    obtain ⟨gap', body, hgap', hbody, rfl⟩ := exists_indent rest
    rw [Text.withoutReturns_append] at hrest
    obtain ⟨rfl, htail⟩ := Text.split_unique hgap'.withoutReturns (Text.head?_withoutReturns hbody)
      hdefinition.blank_gap hdefinition.head?_tail hrest
    have hpaired : body.Paired := ht.of_append.of_append
    obtain ⟨behind', rfl, rfl⟩ :=
      Text.exists_of_withoutReturns hpaired hdefinition.solid_tail.2 htail
    refine ⟨behind', ⟨head, gap', tail, ?_, by simp⟩, rfl⟩
    refine (hdefinition.of_covers (withoutReturns_covers behind')).replace_gap hgap' ?_
    rintro hne rfl
    exact hne rfl
  · rintro ⟨behind', ⟨head, gap, tail, hdefinition, rfl⟩, rfl⟩
    have hgap : Text.Paired (gap ++ (tail ++ behind')) := by
      rw [List.append_assoc, List.append_assoc] at ht
      exact ht.of_append
    refine ⟨head, withoutReturns gap, tail, ?_, ?_⟩
    · refine (hdefinition.of_covers ?_).replace_gap hdefinition.blank_gap.withoutReturns ?_
      · exact covers_withoutReturns ht.of_append
      · exact Text.withoutReturns_ne_nil hgap hdefinition.head?_tail
    · simp only [Text.withoutReturns_append, Text.withoutReturns_eq_self hdefinition.solid_head.2,
        Text.withoutReturns_eq_self hdefinition.solid_tail.2]

private theorem behindLine_withoutReturns (t : Text) :
    behindLine (withoutReturns t) = withoutReturns (behindLine t) := by
  have hmem {part : Text} (hpart : lineFeed ∉ part) : lineFeed ∉ withoutReturns part :=
    fun hfeed => hpart (List.mem_of_mem_filter hfeed)
  by_cases hfeed : lineFeed ∈ t
  · obtain ⟨line, next, rfl, hline⟩ := List.eq_append_cons_of_mem hfeed
    rw [Text.withoutReturns_append, Text.withoutReturns_cons_of_ne CodePoint.lineFeed_ne_return,
      behindLine_append hline, behindLine_append (hmem hline)]
  · rw [behindLine_of_not_mem hfeed, behindLine_of_not_mem (hmem hfeed)]
    rfl

theorem namesIn_withoutReturns {t : Text} (ht : t.Paired) :
    namesIn (withoutReturns t) = namesIn t := by
  induction hlength : t.length using Nat.strong_induction_on generalizing t with
  | _ n ih =>
    obtain ⟨indent, body, hindent, hbody, rfl⟩ := exists_indent t
    rw [Text.withoutReturns_append, namesIn_append hindent.withoutReturns, namesIn_append hindent]
    have hbelow {part b : Text} (heq : body = part ++ b) :
        namesIn (behindLine (withoutReturns b)) = namesIn (behindLine b) := by
      rw [behindLine_withoutReturns]
      by_cases hfeed : lineFeed ∈ b
      · obtain ⟨line, next, rfl, hline⟩ := List.eq_append_cons_of_mem hfeed
        rw [behindLine_append hline]
        subst heq
        refine ih next.length ?_ ht.of_append.of_append.of_append.2 rfl
        simp only [List.length_append, List.length_cons] at hlength
        omega
      · rw [behindLine_of_not_mem hfeed]
        rfl
    by_cases hdefines : ∃ name behind, Defines body name behind
    · obtain ⟨name, behind, hdefines⟩ := hdefines
      have hkept : Defines (withoutReturns body) name (withoutReturns behind) :=
        (defines_withoutReturns_iff ht.of_append).mpr ⟨behind, hdefines, rfl⟩
      obtain ⟨head, gap, tail, -, hsplit⟩ := id hdefines
      rw [namesIn_of_defines hkept, namesIn_of_defines hdefines, hbelow hsplit]
    · simp only [not_exists] at hdefines
      have hnone : ∀ name behind, ¬Defines (withoutReturns body) name behind := by
        intro name behind hdefines'
        obtain ⟨behind', hdefines', -⟩ := (defines_withoutReturns_iff ht.of_append).mp hdefines'
        exact hdefines name behind' hdefines'
      rw [namesIn_of_not_defines (Text.head?_withoutReturns hbody) hnone,
        namesIn_of_not_defines hbody hdefines, hbelow (List.nil_append body).symm]

end Constant

namespace ConstantIndex

private theorem openNames_put {store : DocumentStore} {uri : Text} (h : uri ∉ store.uris)
    (t : Text) :
    openNames (store.put uri t) = openNames store ++ Constant.namesIn t := by
  have hinsert : Entries.insert uri t store.entries = store.entries ++ [(uri, t)] :=
    Entries.insert_of_not_mem h
  simp [openNames, DocumentStore.items, DocumentStore.put, hinsert]

/-- A text of scalar values in which every carriage return is followed by a line feed has the same
constants in a file that holds its bytes, which is read without a report, and as a document that is
opened. -/
theorem file_has_names_of_document {t : Text} (hscalar : t.Scalar) (hpaired : t.Paired) :
    ∃ content, Utf8.encode t = .ok content ∧
      ∀ (disk : Disk) (path : Text), disk.read path = .ok content →
        readNames disk path = (Constant.namesIn t, []) ∧
        ∀ (store : DocumentStore) (uri : Text), uri ∉ store.uris →
          openNames (store.put uri t) = openNames store ++ (readNames disk path).1 := by
  refine ⟨t.flatMap Utf8.encodeScalar, ?_, ?_⟩
  · rw [Utf8.encode, Utf8.loneSurrogates?_eq_none_iff t |>.mpr hscalar]
  · intro disk path hread
    have hnames : readNames disk path = (Constant.namesIn t, []) := by
      rw [readNames, hread]
      simp only [fileText, Utf8.decodeLossy_flatMap hscalar, Text.unifyNewlines_eq hpaired,
        Constant.namesIn_withoutReturns hpaired]
    refine ⟨hnames, ?_⟩
    intro store uri hclosed
    rw [openNames_put hclosed, hnames]

/-- Definitions whose line ends stand before and behind their names and equals signs. -/
def returned : Text := "\r\nclass\r\n  Order\r\nTAX\r\n=\r\n= 1\r\nmodule Shop::\r\nend\r\n"

theorem file_has_names_of_returned : returned.Scalar ∧ returned.Paired ∧
    ∃ content, Utf8.encode returned = .ok content ∧
      (Stage.twoFiles content).read "/w/a.rb" = .ok content ∧
      readNames (Stage.twoFiles content) "/w/a.rb" = ([("Order" : Text), "TAX", "Shop"], []) ∧
      openNames (DocumentStore.put {} "file:///w/a.rb" returned) =
        [("Order" : Text), "TAX", "Shop"] := by
  have hscalar : returned.Scalar := by decide
  have hpaired : returned.Paired := by decide
  have hnames : Constant.namesIn returned = [("Order" : Text), "TAX", "Shop"] := by decide +kernel
  obtain ⟨content, hcontent, hfile⟩ := file_has_names_of_document hscalar hpaired
  have hread := (Stage.read_twoFiles content).1
  obtain ⟨hsame, hopen⟩ := hfile (Stage.twoFiles content) "/w/a.rb" hread
  refine ⟨hscalar, hpaired, content, hcontent, hread, hsame.trans (by rw [hnames]), ?_⟩
  rw [hopen {} "file:///w/a.rb" (List.not_mem_nil), hsame, hnames]
  rfl

end ConstantIndex

end RubyLanguageServer
