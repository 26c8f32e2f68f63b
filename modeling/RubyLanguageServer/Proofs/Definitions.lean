import Mathlib.Data.List.TakeWhile
import RubyLanguageServer.Analysis.Constant
import RubyLanguageServer.Proofs.JsonNumbers
/-!
# What defines a constant

A definition is a word that begins one, blanks and the longest path behind them, or a name in
capitals, blanks and an equals sign that begins no comparison and no match. The scanner finds a
definition at the beginning of a text exactly if there is one, and it has one name only.
-/
namespace RubyLanguageServer

namespace CodePoint

private theorem isWord_of_isUpper {c : CodePoint} (h : c.isUpper = true) : c.isWord = true := by
  simp only [isUpper, Bool.and_eq_true, decide_eq_true_eq] at h
  have hascii : c.val < 0x80 := by omega
  simp [isWord, hascii, isLetter, isUpper, h]

def blanks : List Nat :=
  List.range' 0x9 5 ++ List.range' 0x1c 5 ++ List.range' 0x2000 11 ++
    [0x85, 0xa0, 0x1680, 0x2028, 0x2029, 0x202f, 0x205f, 0x3000]

private theorem isWord_eq_false {c : CodePoint} (h : c.isBlank = true) : c.isWord = false := by
  have hmem : c.val ∈ blanks := by
    simp only [isBlank, isWhite, Bool.or_eq_true, Bool.and_eq_true, decide_eq_true_eq,
      beq_iff_eq] at h
    simp only [blanks, List.mem_append, List.mem_range'_1, List.mem_cons, List.not_mem_nil,
      or_false]
    omega
  have hall : ∀ n ∈ blanks, (ofNat n).isWord = false := by decide +kernel
  rw [← ofNat_val c]
  exact hall c.val hmem

private theorem isBlank_eq_false {c : CodePoint} (h : c.isWord = true) : c.isBlank = false := by
  by_contra hblank
  simp [isWord_eq_false (eq_true_of_ne_false hblank)] at h

theorem isBlank_lineFeed : lineFeed.isBlank = true := by decide

end CodePoint

namespace Text

def Blank (t : Text) : Prop := ∀ c ∈ t, c.isBlank = true

theorem takeWhile_append {p : CodePoint → Bool} {part rest : Text} (hpart : ∀ c ∈ part, p c = true)
    (hrest : ∀ c ∈ rest.head?, p c = false) : (part ++ rest).takeWhile p = part := by
  rw [List.takeWhile_append_of_pos hpart]
  cases rest with
  | nil => simp
  | cons c rest => simp [hrest c rfl]

theorem dropWhile_append {p : CodePoint → Bool} {part rest : Text} (hpart : ∀ c ∈ part, p c = true)
    (hrest : ∀ c ∈ rest.head?, p c = false) : (part ++ rest).dropWhile p = rest := by
  rw [List.dropWhile_append_of_pos hpart]
  cases rest with
  | nil => rfl
  | cons c rest => simp [hrest c rfl]

theorem split_unique {p : CodePoint → Bool} {part part' rest rest' : Text}
    (hpart : ∀ c ∈ part, p c = true) (hrest : ∀ c ∈ rest.head?, p c = false)
    (hpart' : ∀ c ∈ part', p c = true) (hrest' : ∀ c ∈ rest'.head?, p c = false)
    (h : part ++ rest = part' ++ rest') : part = part' ∧ rest = rest' := by
  have htake := congrArg (List.takeWhile p) h
  have hdrop := congrArg (List.dropWhile p) h
  rw [takeWhile_append hpart hrest, takeWhile_append hpart' hrest'] at htake
  rw [dropWhile_append hpart hrest, dropWhile_append hpart' hrest'] at hdrop
  exact ⟨htake, hdrop⟩

theorem of_mem_head?_dropWhile {p : CodePoint → Bool} {t : Text} :
    ∀ c ∈ (t.dropWhile p).head?, p c = false := by
  intro c hc
  have hhead := List.head?_dropWhile_not p t
  rw [Option.mem_def.mp hc] at hhead
  simpa using hhead

theorem exists_behind {c : CodePoint} {part rest t next : Text} (hc : c ∉ part)
    (h : part ++ rest = t ++ c :: next) :
    ∃ more, t = part ++ more ∧ rest = more ++ c :: next := by
  rcases List.append_eq_append_iff.mp h with ⟨more, ht, hrest⟩ | ⟨more, rfl, hnext⟩
  · exact ⟨more, ht, hrest⟩
  · cases more with
    | nil => exact ⟨[], by simp, by simpa using hnext.symm⟩
    | cons d ds =>
      cases hnext
      simp at hc

end Text

namespace Constant

/-- A capital, and then characters of a class only. -/
def IsName (part : CodePoint → Bool) : Text → Prop
  | [] => False
  | c :: cs => c.isUpper = true ∧ ∀ d ∈ cs, part d = true

instance (part : CodePoint → Bool) : (t : Text) → Decidable (IsName part t)
  | [] => isFalse id
  | _ :: _ => inferInstanceAs (Decidable (_ ∧ _))

/-- Names with double colons between them. -/
inductive Qualified : Text → Prop
  | name {t : Text} : IsName CodePoint.isWord t → Qualified t
  | inside {t rest : Text} : IsName CodePoint.isWord t → Qualified rest →
      Qualified (t ++ CodePoint.ofChar ':' :: CodePoint.ofChar ':' :: rest)

/-- The longest path at the beginning of a text: with more of what follows it is no path. -/
def LongestPath (name behind : Text) : Prop :=
  Qualified name ∧ ∀ more, more <+: behind → Qualified (name ++ more) → more = []

theorem IsName.isWord {t : Text} (h : IsName CodePoint.isWord t) : ∀ c ∈ t, c.isWord = true := by
  cases t with
  | nil => exact List.forall_mem_nil _
  | cons c cs => exact List.forall_mem_cons.mpr ⟨CodePoint.isWord_of_isUpper h.1, h.2⟩

private theorem isWord_colon : (CodePoint.ofChar ':').isWord = false := by decide

/-- A path goes on behind a name only with a double colon and a path. -/
theorem qualified_append_cons {t rest : Text} {c : CodePoint} (ht : IsName CodePoint.isWord t)
    (hc : c.isWord = false) : Qualified (t ++ c :: rest) ↔ ∃ more,
      c :: rest = CodePoint.ofChar ':' :: CodePoint.ofChar ':' :: more ∧ Qualified more := by
  constructor
  · intro h
    generalize htext : t ++ c :: rest = text at h
    cases h with
    | name h =>
      subst htext
      have hword := h.isWord c (by simp)
      simp [hc] at hword
    | @inside t' more ht' hmore =>
      obtain ⟨-, hrest⟩ := Text.split_unique ht.isWord (by simpa using hc) ht'.isWord
        (by simpa using isWord_colon) htext
      exact ⟨more, hrest, hmore⟩
  · rintro ⟨more, heq, hmore⟩
    rw [heq]
    exact .inside ht hmore

theorem Qualified.exists_cons {t : Text} (h : Qualified t) :
    ∃ c cs, t = c :: cs ∧ c.isUpper = true := by
  cases h with
  | @name t ht =>
    cases t with
    | nil => exact ht.elim
    | cons c cs => exact ⟨c, cs, rfl, ht.1⟩
  | @inside t rest ht =>
    cases t with
    | nil => exact ht.elim
    | cons c cs => exact ⟨c, _, rfl, ht.1⟩

theorem path?_eq_none_iff {t : Text} : path? t = none ↔ ∀ c ∈ t.head?, c.isUpper = false := by
  fun_cases path? t <;> simp_all

private theorem LongestPath.inside {t name behind : Text} (ht : IsName CodePoint.isWord t)
    (h : LongestPath name behind) :
    LongestPath (t ++ CodePoint.ofChar ':' :: CodePoint.ofChar ':' :: name) behind := by
  refine ⟨.inside ht h.1, ?_⟩
  intro more hmore hpath
  rw [List.append_assoc, List.cons_append, qualified_append_cons ht isWord_colon] at hpath
  obtain ⟨inner, heq, hinner⟩ := hpath
  obtain rfl : name ++ more = inner := by simpa using heq
  exact h.2 more hmore hinner

theorem longestPath_name {t behind : Text} (ht : IsName CodePoint.isWord t)
    (hword : ∀ c ∈ behind.head?, c.isWord = false)
    (hpath : ∀ rest, behind = CodePoint.ofChar ':' :: CodePoint.ofChar ':' :: rest →
      path? rest = none) : LongestPath t behind := by
  refine ⟨.name ht, ?_⟩
  rintro more ⟨rest, rfl⟩ hmore
  cases more with
  | nil => rfl
  | cons c cs =>
    obtain ⟨inner, heq, hinner⟩ := (qualified_append_cons ht (hword c rfl)).mp hmore
    obtain ⟨d, ds, rfl, hd⟩ := hinner.exists_cons
    rw [heq] at hpath
    have hlower := path?_eq_none_iff.mp (hpath _ rfl) d rfl
    simp [hd] at hlower

private theorem longestPath_of_path? {t name behind : Text} (h : path? t = some (name, behind)) :
    t = name ++ behind ∧ LongestPath name behind := by
  have hname {c : CodePoint} {cs : Text} (hc : c.isUpper = true) :
      IsName CodePoint.isWord (c :: cs.takeWhile CodePoint.isWord) :=
    ⟨hc, fun d hd => List.mem_takeWhile_imp hd⟩
  have hsplit (cs : Text) : cs = cs.takeWhile CodePoint.isWord ++ cs.dropWhile CodePoint.isWord :=
    List.takeWhile_append_dropWhile.symm
  fun_induction path? t generalizing name behind with
  | case1 => cases h
  | case2 =>
    rename_i c cs hc _ a b rest hdrop hcolon more rest' hpath ih
    cases h
    obtain ⟨rfl, rfl⟩ : a = CodePoint.ofChar ':' ∧ b = CodePoint.ofChar ':' := by simpa using hcolon
    obtain ⟨rfl, hlongest⟩ := ih hpath
    refine ⟨?_, hlongest.inside (hname hc)⟩
    rw [List.append_assoc, List.cons_append, List.cons_append, List.cons_append, ← hdrop]
    exact congrArg (c :: ·) (hsplit cs)
  | case3 =>
    rename_i c cs hc _ a b rest hdrop _ hpath _
    cases h
    rw [← hdrop]
    refine ⟨congrArg (c :: ·) (hsplit cs), ?_⟩
    apply longestPath_name (hname hc) Text.of_mem_head?_dropWhile
    intro inner hinner
    rw [hdrop] at hinner
    cases hinner
    exact hpath
  | case4 =>
    rename_i c cs hc _ a b rest hdrop hcolon
    cases h
    rw [← hdrop]
    refine ⟨congrArg (c :: ·) (hsplit cs), ?_⟩
    apply longestPath_name (hname hc) Text.of_mem_head?_dropWhile
    intro inner hinner
    rw [hdrop] at hinner
    cases hinner
    simp at hcolon
  | case5 =>
    rename_i c cs hc _ hshort
    cases h
    refine ⟨congrArg (c :: ·) (hsplit cs), ?_⟩
    apply longestPath_name (hname hc) Text.of_mem_head?_dropWhile
    intro inner hinner
    exact (hshort _ _ _ hinner).elim
  | case6 => cases h

theorem LongestPath.unique {name name' behind behind' : Text} (h : LongestPath name behind)
    (h' : LongestPath name' behind') (htext : name ++ behind = name' ++ behind') :
    name = name' ∧ behind = behind' := by
  rcases List.append_eq_append_iff.mp htext with ⟨more, rfl, rfl⟩ | ⟨more, rfl, rfl⟩
  · obtain rfl := h.2 more (List.prefix_append more _) h'.1
    simp
  · obtain rfl := h'.2 more (List.prefix_append more _) h.1
    simp

/-- A text begins with a path exactly if the scanner finds one, and it finds the longest. -/
theorem path?_eq_some_iff {t name behind : Text} :
    path? t = some (name, behind) ↔ t = name ++ behind ∧ LongestPath name behind := by
  refine ⟨longestPath_of_path?, ?_⟩
  rintro ⟨rfl, hlongest⟩
  cases hpath : path? (name ++ behind) with
  | none =>
    obtain ⟨c, cs, rfl, hc⟩ := hlongest.1.exists_cons
    have hlower := path?_eq_none_iff.mp hpath c rfl
    simp [hc] at hlower
  | some found =>
    obtain ⟨name', behind'⟩ := found
    obtain ⟨htext, hfound⟩ := longestPath_of_path? hpath
    obtain ⟨rfl, rfl⟩ := hlongest.unique hfound htext
    rfl

def IsKeyword (t : Text) : Prop := t = "class" ∨ t = "module"

instance (t : Text) : Decidable (IsKeyword t) := inferInstanceAs (Decidable (_ ∨ _))

/-- The text begins neither with an equals sign nor with a tilde, with which an equals sign before
it would make a comparison or a match. -/
def NoOperator (t : Text) : Prop :=
  t.head? ≠ some (CodePoint.ofChar '=') ∧ t.head? ≠ some (CodePoint.ofChar '~')

/-- The parts of a definition: its head, the blanks behind the head, and its tail; then its name,
and the text that follows it. -/
inductive Definition : Text → Text → Text → Text → Text → Prop
  | declared {keyword gap name behind : Text} : IsKeyword keyword → gap.Blank → gap ≠ [] →
      LongestPath name behind → Definition keyword gap name name behind
  | assigned {name gap behind : Text} : IsName isCapitalPart name → gap.Blank →
      NoOperator behind → Definition name gap [CodePoint.ofChar '='] name behind

/-- The text begins with a definition of the name, and goes on behind it. -/
def Defines (t name behind : Text) : Prop :=
  ∃ head gap tail, Definition head gap tail name behind ∧ t = head ++ gap ++ tail ++ behind

theorem keyword?_eq_some_iff {t rest : Text} :
    keyword? t = some rest ↔ ∃ keyword, IsKeyword keyword ∧ t = keyword ++ rest := by
  constructor
  · intro h
    rw [keyword?] at h
    split at h
    · rename_i hclass
      cases h
      exact ⟨_, .inl rfl, Json.eq_append_of_after? hclass⟩
    · exact ⟨_, .inr rfl, Json.eq_append_of_after? h⟩
  · rintro ⟨keyword, rfl | rfl, rfl⟩
    · rw [keyword?, Text.after?_append]
    · exact Text.after?_append _ rest

private theorem LongestPath.head?_append {name behind : Text} (h : LongestPath name behind) :
    ∀ c ∈ (name ++ behind).head?, c.isUpper = true := by
  obtain ⟨c, cs, rfl, hc⟩ := h.1.exists_cons
  simpa using hc

private theorem scoped?_of_keyword? {t : Text} {c : CodePoint} {cs : Text}
    (h : keyword? t = some (c :: cs)) :
    scoped? t = if c.isBlank then path? (cs.dropWhile CodePoint.isBlank) else none := by
  rw [scoped?, h]
  rfl

theorem scoped?_eq_some_iff {t name behind : Text} : scoped? t = some (name, behind) ↔
    ∃ keyword gap : Text, IsKeyword keyword ∧ gap.Blank ∧ gap ≠ [] ∧ LongestPath name behind ∧
      t = keyword ++ gap ++ name ++ behind := by
  constructor
  · intro h
    cases hrest : keyword? t with
    | none => simp [scoped?, hrest] at h
    | some rest =>
      cases rest with
      | nil => simp [scoped?, hrest] at h
      | cons c cs =>
        obtain ⟨keyword, hkeyword, rfl⟩ := keyword?_eq_some_iff.mp hrest
        rw [scoped?_of_keyword? hrest] at h
        obtain ⟨hc, h⟩ := Option.ite_none_right_eq_some.mp h
        obtain ⟨hpath, hlongest⟩ := path?_eq_some_iff.mp h
        refine ⟨keyword, c :: cs.takeWhile CodePoint.isBlank, hkeyword, ?_, by simp, hlongest, ?_⟩
        · exact List.forall_mem_cons.mpr ⟨hc, fun d hd => List.mem_takeWhile_imp hd⟩
        · rw [List.append_assoc, ← hpath, List.append_assoc, List.cons_append,
            List.takeWhile_append_dropWhile]
  · rintro ⟨keyword, gap, hkeyword, hblank, hne, hlongest, rfl⟩
    obtain ⟨c, gap, rfl⟩ := List.exists_cons_of_ne_nil hne
    obtain ⟨hc, hgap⟩ := List.forall_mem_cons.mp hblank
    have hupper : ∀ d ∈ (name ++ behind).head?, d.isBlank = false :=
      fun d hd => CodePoint.isBlank_eq_false
        (CodePoint.isWord_of_isUpper (hlongest.head?_append d hd))
    have hrest : keyword? (keyword ++ c :: gap ++ name ++ behind) =
        some (c :: (gap ++ (name ++ behind))) :=
      keyword?_eq_some_iff.mpr ⟨keyword, hkeyword, by simp⟩
    rw [scoped?_of_keyword? hrest, if_pos hc, Text.dropWhile_append hgap hupper]
    exact path?_eq_some_iff.mpr ⟨rfl, hlongest⟩

private theorem isWord_of_isCapitalPart {c : CodePoint} (h : isCapitalPart c = true) :
    c.isWord = true := by
  simp only [isCapitalPart, Bool.or_eq_true, decide_eq_true_eq] at h
  rcases h with (h | h) | rfl
  · exact CodePoint.isWord_of_isUpper h
  · have hascii : c.val < 0x80 := by
      simp only [CodePoint.isDigit, Bool.and_eq_true, decide_eq_true_eq] at h
      omega
    simp [CodePoint.isWord, hascii, h]
  · decide

/-- In capitals a name ends where blanks and an equals sign begin. -/
theorem head?_gap {gap behind : Text} (hgap : gap.Blank) :
    ∀ c ∈ (gap ++ CodePoint.ofChar '=' :: behind).head?, c.isWord = false := by
  cases gap with
  | nil => simpa using (by decide : (CodePoint.ofChar '=').isWord = false)
  | cons c gap => simpa using CodePoint.isWord_eq_false (hgap c List.mem_cons_self)

theorem assigned?_eq_some_iff {t name behind : Text} : assigned? t = some (name, behind) ↔
    ∃ gap : Text, IsName isCapitalPart name ∧ gap.Blank ∧ NoOperator behind ∧
      t = name ++ gap ++ CodePoint.ofChar '=' :: behind := by
  constructor
  · intro h
    cases t with
    | nil => cases h
    | cons c cs =>
      rw [assigned?] at h
      obtain ⟨hc, h⟩ := Option.ite_none_right_eq_some.mp h
      have hname : IsName isCapitalPart (c :: cs.takeWhile isCapitalPart) :=
        ⟨hc, fun d hd => List.mem_takeWhile_imp hd⟩
      cases hrest : (cs.dropWhile isCapitalPart).dropWhile CodePoint.isBlank with
      | nil => simp [hrest] at h
      | cons e rest =>
        rw [hrest] at h
        obtain ⟨rfl, h⟩ := Option.ite_none_right_eq_some.mp h
        obtain ⟨hfound, hbehind⟩ :
            some (c :: cs.takeWhile isCapitalPart, rest) = some (name, behind) ∧
              NoOperator rest := by
          cases rest with
          | nil => exact ⟨h, by simp [NoOperator]⟩
          | cons d ds =>
            obtain ⟨hd, h⟩ := Option.ite_none_left_eq_some.mp h
            exact ⟨h, by simpa [NoOperator, not_or] using hd⟩
        cases hfound
        have htext : c :: cs = c :: cs.takeWhile isCapitalPart ++
            (cs.dropWhile isCapitalPart).takeWhile CodePoint.isBlank ++
              CodePoint.ofChar '=' :: behind := by
          rw [← hrest, List.append_assoc, List.takeWhile_append_dropWhile, List.cons_append,
            List.takeWhile_append_dropWhile]
        exact ⟨_, hname, fun d hd => List.mem_takeWhile_imp hd, hbehind, htext⟩
  · rintro ⟨gap, hname, hblank, hbehind, rfl⟩
    cases name with
    | nil => exact hname.elim
    | cons c cs =>
      have hcapital : ∀ d ∈ (gap ++ CodePoint.ofChar '=' :: behind).head?,
          isCapitalPart d = false := by
        intro d hd
        have hword := head?_gap hblank d hd
        by_contra hd
        simp [isWord_of_isCapitalPart (Bool.not_eq_false _ ▸ hd)] at hword
      have hequals : ∀ d ∈ (CodePoint.ofChar '=' :: behind).head?, d.isBlank = false := by
        simpa using (by decide : (CodePoint.ofChar '=').isBlank = false)
      rw [List.append_assoc, List.cons_append, assigned?, if_pos hname.1,
        Text.dropWhile_append hname.2 hcapital, Text.takeWhile_append hname.2 hcapital,
        Text.dropWhile_append hblank hequals]
      cases behind with
      | nil => rfl
      | cons d ds => simp_all [NoOperator]

theorem IsKeyword.exists_cons {t : Text} (h : IsKeyword t) :
    ∃ c cs, t = c :: cs ∧ c.isUpper = false := by
  rcases h with rfl | rfl
  · exact ⟨_, _, rfl, by decide⟩
  · exact ⟨_, _, rfl, by decide⟩

/-- The scanner finds a definition at the beginning of a text exactly if there is one. -/
theorem definition?_eq_some_iff {t name behind : Text} :
    definition? t = some (name, behind) ↔ Defines t name behind := by
  constructor
  · intro h
    rw [definition?] at h
    split at h
    · rename_i hscoped
      cases h
      obtain ⟨keyword, gap, hkeyword, hblank, hne, hlongest, rfl⟩ := scoped?_eq_some_iff.mp hscoped
      exact ⟨keyword, gap, name, .declared hkeyword hblank hne hlongest, rfl⟩
    · obtain ⟨gap, hname, hblank, hbehind, rfl⟩ := assigned?_eq_some_iff.mp h
      exact ⟨name, gap, _, .assigned hname hblank hbehind, by simp⟩
  · rintro ⟨head, gap, tail, hdefinition, rfl⟩
    cases hdefinition with
    | declared hkeyword hblank hne hlongest =>
      rw [definition?, scoped?_eq_some_iff.mpr ⟨head, gap, hkeyword, hblank, hne, hlongest, rfl⟩]
    | assigned hname hblank hbehind =>
      have hassigned : assigned? (name ++ gap ++ [CodePoint.ofChar '='] ++ behind) =
          some (name, behind) := assigned?_eq_some_iff.mpr ⟨gap, hname, hblank, hbehind, by simp⟩
      rw [definition?, hassigned]
      cases hscoped : scoped? (name ++ gap ++ [CodePoint.ofChar '='] ++ behind) with
      | none => rfl
      | some found =>
        -- A word that begins a definition does not begin with a capital.
        obtain ⟨keyword, gap', hkeyword, -, -, -, htext⟩ := scoped?_eq_some_iff.mp hscoped
        obtain ⟨c, cs, rfl, hc⟩ := hkeyword.exists_cons
        cases name with
        | nil => exact hname.elim
        | cons d ds =>
          obtain rfl : d = c := congrArg (List.headI) htext
          simp [hname.1] at hc

private theorem Qualified.isBlank {t : Text} (h : Qualified t) : ∀ c ∈ t, c.isBlank = false := by
  induction h with
  | name ht => exact fun c hc => CodePoint.isBlank_eq_false (ht.isWord c hc)
  | inside ht _ ih =>
    have hcolon : (CodePoint.ofChar ':').isBlank = false := by decide
    intro c hc
    rcases List.mem_append.mp hc with hc | hc
    · exact CodePoint.isBlank_eq_false (ht.isWord c hc)
    · simp only [List.mem_cons] at hc
      rcases hc with rfl | rfl | hc
      · exact hcolon
      · exact hcolon
      · exact ih c hc

theorem IsName.ofCapitals {t : Text} (h : IsName isCapitalPart t) : IsName CodePoint.isWord t := by
  cases t with
  | nil => exact h.elim
  | cons c cs => exact ⟨h.1, fun d hd => isWord_of_isCapitalPart (h.2 d hd)⟩

theorem IsName.qualified {t : Text} (h : IsName isCapitalPart t) : Qualified t := .name h.ofCapitals

/-- A text that is not empty and holds no blank. -/
def Solid (t : Text) : Prop := t ≠ [] ∧ ∀ c ∈ t, c.isBlank = false

private theorem Qualified.solid {t : Text} (h : Qualified t) : Solid t := by
  obtain ⟨c, cs, rfl, -⟩ := h.exists_cons
  exact ⟨List.cons_ne_nil c cs, h.isBlank⟩

private theorem IsKeyword.solid {t : Text} (h : IsKeyword t) : Solid t := by
  rcases h with rfl | rfl
  · exact ⟨by decide, by decide⟩
  · exact ⟨by decide, by decide⟩

theorem Definition.solid_head {head gap tail name behind : Text}
    (h : Definition head gap tail name behind) : Solid head := by
  cases h with
  | declared hkeyword => exact hkeyword.solid
  | assigned hname => exact hname.qualified.solid

theorem Definition.solid_tail {head gap tail name behind : Text}
    (h : Definition head gap tail name behind) : Solid tail := by
  cases h with
  | declared _ _ _ hlongest => exact hlongest.1.solid
  | assigned => exact ⟨by decide, by decide⟩

theorem Definition.blank_gap {head gap tail name behind : Text}
    (h : Definition head gap tail name behind) : gap.Blank := by
  cases h <;> assumption

theorem Definition.head?_tail {head gap tail name behind : Text}
    (h : Definition head gap tail name behind) :
    ∀ c ∈ (tail ++ behind).head?, c.isBlank = false := by
  obtain ⟨hne, hblank⟩ := h.solid_tail
  obtain ⟨c, cs, rfl⟩ := List.exists_cons_of_ne_nil hne
  simpa using hblank c List.mem_cons_self

/-- The first text begins with all that the second begins with up to a blank. -/
def Covers (t t' : Text) : Prop :=
  ∀ part : Text, (∀ c ∈ part, c.isBlank = false) → part <+: t' → part <+: t

private theorem LongestPath.of_covers {name behind behind' : Text} (h : LongestPath name behind)
    (hcovers : Covers behind behind') : LongestPath name behind' := by
  refine ⟨h.1, ?_⟩
  intro more hmore hpath
  refine h.2 more (hcovers more ?_ hmore) hpath
  intro c hc
  exact hpath.isBlank c (List.mem_append_right name hc)

private theorem NoOperator.of_covers {t t' : Text} (h : NoOperator t) (hcovers : Covers t t') :
    NoOperator t' := by
  have hhead {c : CodePoint} (hc : c.isBlank = false) (hhead : t'.head? = some c) :
      t.head? = some c := by
    obtain ⟨cs, rfl⟩ := List.head?_eq_some_iff.mp hhead
    obtain ⟨rest, rfl⟩ := hcovers [c] (by simpa using hc) (by simp)
    rfl
  exact ⟨fun heq => h.1 (hhead (by decide) heq), fun heq => h.2 (hhead (by decide) heq)⟩

/-- A definition stays one if the text behind it changes behind a blank only. -/
theorem Definition.of_covers {head gap tail name behind behind' : Text}
    (h : Definition head gap tail name behind) (hcovers : Covers behind behind') :
    Definition head gap tail name behind' := by
  cases h with
  | declared hkeyword hblank hne hlongest =>
    exact .declared hkeyword hblank hne (hlongest.of_covers hcovers)
  | assigned hname hblank hbehind => exact .assigned hname hblank (hbehind.of_covers hcovers)

def behindLine (t : Text) : Text := (t.dropWhile (· ≠ CodePoint.lineFeed)).tail

theorem behindLine_append {line : Text} (hline : CodePoint.lineFeed ∉ line) (t : Text) :
    behindLine (line ++ CodePoint.lineFeed :: t) = t := by
  have hpart : ∀ c ∈ line, decide (c ≠ CodePoint.lineFeed) = true := by
    intro c hc
    exact decide_eq_true (ne_of_mem_of_not_mem hc hline)
  rw [behindLine, Text.dropWhile_append hpart (by simp)]
  rfl

theorem behindLine_of_not_mem {line : Text} (hline : CodePoint.lineFeed ∉ line) :
    behindLine line = [] := by
  have hnil : line.dropWhile (· ≠ CodePoint.lineFeed) = [] := by
    rw [List.dropWhile_eq_nil_iff]
    intro c hc
    exact decide_eq_true (ne_of_mem_of_not_mem hc hline)
  rw [behindLine, hnil, List.tail_nil]

theorem namesIn_nil : namesIn [] = [] := by
  rw [namesIn]
  rfl

private theorem namesIn_eq (t : Text) :
    namesIn t = (first (t.dropWhile CodePoint.isBlank)).1 ++
      namesIn (behindLine (first (t.dropWhile CodePoint.isBlank)).2) := by
  conv_lhs => rw [namesIn]
  rcases hfirst : first (t.dropWhile CodePoint.isBlank) with ⟨names, behind⟩
  simp only [behindLine]
  split
  · rename_i hdrop
    rw [hdrop, List.tail_nil, namesIn_nil, List.append_nil]
  · rename_i hdrop
    rw [hdrop, List.tail_cons]

section Scan

variable {t name behind : Text}

theorem namesIn_append {indent : Text} (hindent : indent.Blank) (t : Text) :
    namesIn (indent ++ t) = namesIn t := by
  rw [namesIn_eq, namesIn_eq t, List.dropWhile_append_of_pos hindent]

theorem Defines.head? (h : Defines t name behind) : ∀ c ∈ t.head?, c.isBlank = false := by
  obtain ⟨head, gap, tail, hdefinition, rfl⟩ := h
  obtain ⟨hne, hblank⟩ := hdefinition.solid_head
  obtain ⟨c, cs, rfl⟩ := List.exists_cons_of_ne_nil hne
  simpa using hblank c List.mem_cons_self

theorem dropWhile_isBlank (h : ∀ c ∈ t.head?, c.isBlank = false) :
    t.dropWhile CodePoint.isBlank = t := Text.dropWhile_append (List.forall_mem_nil _) h

theorem namesIn_of_defines (h : Defines t name behind) :
    namesIn t = name :: namesIn (behindLine behind) := by
  have hfirst : first t = ([name], behind) := by rw [first, definition?_eq_some_iff.mpr h]
  rw [namesIn_eq, dropWhile_isBlank h.head?, hfirst]
  rfl

theorem namesIn_of_not_defines (ht : ∀ c ∈ t.head?, c.isBlank = false)
    (h : ∀ name behind, ¬Defines t name behind) : namesIn t = namesIn (behindLine t) := by
  have hnone : definition? t = none := by
    rw [Option.eq_none_iff_forall_ne_some]
    rintro ⟨name, behind⟩ hsome
    exact h name behind (definition?_eq_some_iff.mp hsome)
  have hfirst : first t = ([], t) := by rw [first, hnone]
  rw [namesIn_eq, dropWhile_isBlank ht, hfirst]
  rfl

end Scan

end Constant

end RubyLanguageServer
