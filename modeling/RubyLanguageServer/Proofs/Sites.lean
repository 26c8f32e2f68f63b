import RubyLanguageServer.Proofs.LineByLine
/-!
# Where constants are defined

The names in a text are those of its sites, in order: the paths behind a word that begins a
definition, and the names in capitals that stand first on their line before an equals sign. The sign
may begin an arrow, in which case the name is reported though it is only used.
-/
namespace RubyLanguageServer

namespace Constant

open CodePoint (lineFeed)

/-- A name in a text, with what stands before and behind it. -/
structure Site where
  before : Text
  name : Text
  behind : Text

/-- Only blanks stand between the beginning of a line and the end of the text. -/
def FirstOnLine (t : Text) : Prop :=
  t.Blank ∨ ∃ above below : Text, below.Blank ∧ t = above ++ lineFeed :: below

namespace Site

def text (s : Site) : Text := s.before ++ s.name ++ s.behind

def shift (more : Text) (s : Site) : Site := { s with before := more ++ s.before }

/-- The name is the longest path behind a word that begins a definition and stands first on its
line. -/
def Declared (s : Site) : Prop :=
  ∃ lead keyword gap : Text, FirstOnLine lead ∧ IsKeyword keyword ∧ gap.Blank ∧ gap ≠ [] ∧
    LongestPath s.name s.behind ∧ s.before = lead ++ keyword ++ gap

/-- The name is in capitals and first on its line, and an equals sign and the given text follow it
behind blanks. -/
def Equated (s : Site) (rest : Text) : Prop :=
  FirstOnLine s.before ∧ IsName isCapitalPart s.name ∧
    ∃ gap : Text, gap.Blank ∧ s.behind = gap ++ CodePoint.ofChar '=' :: rest

/-- The name is the target of an assignment: the equals sign begins no comparison, no match and no
arrow. -/
def IsAssignment (s : Site) : Prop :=
  ∃ rest, s.Equated rest ∧ NoOperator rest ∧ rest.head? ≠ some (CodePoint.ofChar '>')

/-- The site is that of a definition that begins behind the given text. -/
inductive Found (lead : Text) : Site → Prop
  | declared {keyword gap name behind : Text} : IsKeyword keyword → gap.Blank → gap ≠ [] →
      LongestPath name behind → Found lead ⟨lead ++ keyword ++ gap, name, behind⟩
  | assigned {name gap rest : Text} : IsName isCapitalPart name → gap.Blank → NoOperator rest →
      Found lead ⟨lead, name, gap ++ CodePoint.ofChar '=' :: rest⟩

/-- The site is that of a definition which stands first on its line. -/
def IsFound (s : Site) : Prop := ∃ lead, FirstOnLine lead ∧ s.Found lead

theorem isFound_iff (s : Site) :
    s.IsFound ↔ s.Declared ∨ ∃ rest, s.Equated rest ∧ NoOperator rest := by
  constructor
  · rintro ⟨lead, hlead, hfound⟩
    cases hfound with
    | declared hkeyword hblank hne hlongest =>
      exact .inl ⟨_, _, _, hlead, hkeyword, hblank, hne, hlongest, rfl⟩
    | assigned hname hblank hrest => exact .inr ⟨_, ⟨hlead, hname, _, hblank, rfl⟩, hrest⟩
  · obtain ⟨before, name, behind⟩ := s
    rintro (⟨lead, keyword, gap, hlead, hkeyword, hblank, hne, hlongest, rfl⟩ |
      ⟨rest, ⟨hlead, hname, gap, hblank, rfl⟩, hrest⟩)
    · exact ⟨lead, hlead, .declared hkeyword hblank hne hlongest⟩
    · exact ⟨before, hlead, .assigned hname hblank hrest⟩

private theorem Equated.unique {s : Site} {rest rest' : Text} (h : s.Equated rest)
    (h' : s.Equated rest') :
    rest = rest' := by
  obtain ⟨-, -, gap, hgap, hbehind⟩ := h
  obtain ⟨-, -, gap', hgap', hbehind'⟩ := h'
  have hequals (rest : Text) : ∀ c ∈ (CodePoint.ofChar '=' :: rest).head?, c.isBlank = false := by
    simpa using (by decide : (CodePoint.ofChar '=').isBlank = false)
  obtain ⟨-, hrest⟩ := Text.split_unique hgap (hequals rest) hgap' (hequals rest')
    (hbehind.symm.trans hbehind')
  exact List.tail_eq_of_cons_eq hrest

section Found

variable {lead : Text} {s s' : Site}

private theorem Found.defines (h : s.Found lead) :
    ∃ t behind, Defines t s.name behind ∧ s.text = lead ++ t := by
  cases h with
  | declared hkeyword hblank hne hlongest =>
    exact ⟨_, _, ⟨_, _, _, .declared hkeyword hblank hne hlongest, rfl⟩, by simp [text]⟩
  | assigned hname hblank hrest =>
    exact ⟨_, _, ⟨_, _, _, .assigned hname hblank hrest, rfl⟩, by simp [text]⟩

private theorem Found.length_le (h : s.Found lead) : lead.length ≤ s.before.length := by
  cases h with
  | declared =>
    simp only [List.length_append]
    omega
  | assigned => exact Nat.le_refl _

theorem found_append_iff (more : Text) :
    s.Found (more ++ lead) ↔ ∃ s' : Site, s'.Found lead ∧ s'.shift more = s := by
  constructor
  · intro h
    cases h with
    | declared hkeyword hblank hne hlongest =>
      exact ⟨_, .declared hkeyword hblank hne hlongest, by simp [shift]⟩
    | assigned hname hblank hrest => exact ⟨_, .assigned hname hblank hrest, rfl⟩
  · rintro ⟨s', h, rfl⟩
    cases h with
    | declared hkeyword hblank hne hlongest =>
      have hfound : Found (more ++ lead) _ := .declared hkeyword hblank hne hlongest
      simpa [shift] using hfound
    | assigned hname hblank hrest => exact .assigned hname hblank hrest

private theorem text_shift (more : Text) (s : Site) : (s.shift more).text = more ++ s.text := by
  simp [text, shift]

end Found

end Site

private theorem keyword_append_ne {keyword name rest rest' : Text} (hkeyword : IsKeyword keyword)
    (hname : Qualified name) : keyword ++ rest ≠ name ++ rest' := by
  intro heq
  obtain ⟨c, cs, rfl, hc⟩ := hkeyword.exists_cons
  obtain ⟨d, ds, rfl, hd⟩ := hname.exists_cons
  obtain rfl : c = d := congrArg List.headI heq
  simp [hd] at hc

private theorem Defines.isWord {t name behind : Text} (h : Defines t name behind) :
    ∀ c ∈ t.head?, c.isWord = true := by
  obtain ⟨head, gap, tail, hdefinition, rfl⟩ := h
  have hhead : ∀ c ∈ head.head?, c.isWord = true := by
    rcases hdefinition.isHead with (rfl | rfl) | hname
    · decide
    · decide
    · intro c hc
      exact hname.ofCapitals.isWord c (List.mem_of_mem_head? hc)
  obtain ⟨c, cs, rfl⟩ := List.exists_cons_of_ne_nil hdefinition.solid_head.1
  simpa using hhead

private theorem IsName.longestPath {name gap rest : Text} (hname : IsName isCapitalPart name)
    (hgap : gap.Blank) : LongestPath name (gap ++ CodePoint.ofChar '=' :: rest) := by
  refine longestPath_name hname.ofCapitals (head?_gap hgap) ?_
  intro inner hinner
  cases gap with
  | nil => cases hinner
  | cons c gap =>
    obtain ⟨rfl, -⟩ := List.cons.inj hinner
    have hcolon : (CodePoint.ofChar ':').isBlank = false := by decide
    simp [hgap _ List.mem_cons_self] at hcolon

theorem Site.Found.unique {lead : Text} {s s' : Site} (h : s.Found lead) (h' : s'.Found lead)
    (htext : s.text = s'.text) : s = s' := by
  cases h with
  | @declared keyword gap name behind hkeyword hblank hne hlongest =>
    cases h' with
    | @declared keyword' gap' name' behind' hkeyword' hblank' hne' hlongest' =>
      have hsame : keyword ++ gap ++ name ++ behind = keyword' ++ gap' ++ name' ++ behind' := by
        simpa [text] using htext
      have hleft := scoped?_eq_some_iff.mpr ⟨keyword, gap, hkeyword, hblank, hne, hlongest, rfl⟩
      have hright :=
        scoped?_eq_some_iff.mpr ⟨keyword', gap', hkeyword', hblank', hne', hlongest', rfl⟩
      rw [hsame, hright] at hleft
      cases hleft
      rw [List.append_assoc, List.append_assoc,
        List.append_cancel_right (List.append_cancel_right hsame)]
    | assigned hname' =>
      simp only [text, List.append_assoc, List.append_cancel_left_eq] at htext
      exact (keyword_append_ne hkeyword hname'.qualified htext).elim
  | @assigned name gap rest hname hblank hrest =>
    cases h' with
    | declared hkeyword' =>
      simp only [text, List.append_assoc, List.append_cancel_left_eq] at htext
      exact (keyword_append_ne hkeyword' hname.qualified htext.symm).elim
    | @assigned name' gap' rest' hname' hblank' hrest' =>
      have hsame : name ++ gap ++ CodePoint.ofChar '=' :: rest =
          name' ++ gap' ++ CodePoint.ofChar '=' :: rest' := by
        simpa [text] using htext
      have hleft := assigned?_eq_some_iff.mpr ⟨gap, hname, hblank, hrest, rfl⟩
      have hright := assigned?_eq_some_iff.mpr ⟨gap', hname', hblank', hrest', rfl⟩
      rw [hsame, hright] at hleft
      cases hleft
      simpa [text] using htext

/-- A line begins at the first character that is not blank, or behind a line feed further on. -/
theorem FirstOnLine.cases {lead indent body t : Text} (hlead : FirstOnLine lead)
    (hindent : indent.Blank) (htext : lead ++ t = indent ++ body)
    (hbody : ∀ c ∈ body.head?, c.isBlank = false) (ht : ∀ c ∈ t.head?, c.isBlank = false) :
    (lead = indent ∧ t = body) ∨ ∃ above below : Text, below.Blank ∧
      lead = indent ++ above ++ lineFeed :: below ∧ body = above ++ lineFeed :: (below ++ t) := by
  by_cases hblank : lead.Blank
  · exact .inl (Text.split_unique hblank ht hindent hbody htext)
  · right
    obtain ⟨above, below, hbelow, rfl⟩ := hlead.resolve_left hblank
    rw [List.append_assoc] at htext
    rcases List.append_eq_append_iff.mp htext with ⟨gap, rfl, -⟩ | ⟨more, rfl, hmore⟩
    · refine (hblank ?_).elim
      intro c hc
      simp only [List.mem_append, List.mem_cons] at hc
      rcases hc with hc | rfl | hc
      · exact hindent c (List.mem_append_left gap hc)
      · exact CodePoint.isBlank_lineFeed
      · exact hbelow c hc
    · exact ⟨more, below, hbelow, rfl, hmore⟩

/-- The sites are those of the text in order, and their names are the names in the text. -/
structure Locates (t : Text) (sites : List Site) : Prop where
  names : sites.map Site.name = namesIn t
  ordered : sites.Pairwise fun s s' => s.before.length < s'.before.length
  mem_iff : ∀ s, s ∈ sites ↔ s.text = t ∧ s.IsFound

private theorem firstOnLine_append (above : Text) {below : Text} (h : below.Blank) :
    FirstOnLine (above ++ lineFeed :: below) := .inr ⟨above, below, h, rfl⟩

/-- The sites behind a line are those of the text behind it, with the line before them. -/
theorem exists_shift_iff {line : Text} (hline : lineFeed ∉ line) (pre next : Text) (s : Site) :
    (∃ s' : Site, (s'.text = next ∧ s'.IsFound) ∧ s'.shift (pre ++ line ++ [lineFeed]) = s) ↔
      s.text = pre ++ (line ++ lineFeed :: next) ∧
        ∃ above below : Text, below.Blank ∧ s.Found (pre ++ above ++ lineFeed :: below) := by
  constructor
  · rintro ⟨s, ⟨htext, lead, hlead, hfound⟩, rfl⟩
    refine ⟨by simp [Site.text_shift, htext], ?_⟩
    have hshift := (Site.found_append_iff (pre ++ line ++ [lineFeed])).mpr ⟨s, hfound, rfl⟩
    rcases hlead with hblank | ⟨above, below, hblank, rfl⟩
    · exact ⟨line, lead, hblank, by simpa using hshift⟩
    · exact ⟨line ++ lineFeed :: above, below, hblank, by simpa using hshift⟩
  · rintro ⟨htext, above, below, hblank, hfound⟩
    obtain ⟨t, -, -, ht⟩ := hfound.defines
    have hsame : line ++ lineFeed :: next = above ++ lineFeed :: (below ++ t) := by
      simpa using htext.symm.trans ht
    obtain ⟨more, rfl, hmore⟩ := Text.exists_behind hline hsame
    -- The line feed that ends the line is the one before the definition, or an earlier one.
    obtain ⟨lead, hlead, hlines⟩ :
        ∃ lead, FirstOnLine lead ∧ more ++ lineFeed :: below = lineFeed :: lead := by
      cases more with
      | nil => exact ⟨below, .inl hblank, rfl⟩
      | cons c more =>
        obtain ⟨rfl, -⟩ := List.cons.inj hmore
        exact ⟨_, firstOnLine_append more hblank, rfl⟩
    have hmoved : s.Found (pre ++ line ++ [lineFeed] ++ lead) := by
      simpa [hlines] using hfound
    obtain ⟨s, hs, rfl⟩ := (Site.found_append_iff _).mp hmoved
    refine ⟨s, ⟨?_, lead, hlead, hs⟩, rfl⟩
    simpa [Site.text_shift] using htext

/-- The sites on the lines behind the first, in a text that has more before it. -/
theorem exists_below {b : Text}
    (ih : ∀ next : Text, next.length < b.length → ∃ sites, Locates next sites) (pre : Text) :
    ∃ sites : List Site, sites.map Site.name = namesIn (behindLine b) ∧
      (sites.Pairwise fun s s' => s.before.length < s'.before.length) ∧
      ∀ s, s ∈ sites ↔ s.text = pre ++ b ∧
        ∃ above below : Text, below.Blank ∧ s.Found (pre ++ above ++ lineFeed :: below) := by
  by_cases hfeed : lineFeed ∈ b
  · obtain ⟨line, next, rfl, hline⟩ := List.eq_append_cons_of_mem hfeed
    obtain ⟨sites, hsites⟩ := ih next (by simp; omega)
    refine ⟨sites.map (Site.shift (pre ++ line ++ [lineFeed])), ?_, ?_, ?_⟩
    · rw [behindLine_append hline, ← hsites.names, List.map_map]
      rfl
    · rw [List.pairwise_map]
      refine hsites.ordered.imp ?_
      intro s s' hlt
      simpa [Site.shift] using hlt
    · intro s
      simp only [List.mem_map, hsites.mem_iff]
      exact exists_shift_iff hline pre next s
  · refine ⟨[], by rw [behindLine_of_not_mem hfeed, namesIn_nil, List.map_nil], .nil, ?_⟩
    intro s
    refine ⟨fun hs => (List.not_mem_nil hs).elim, ?_⟩
    rintro ⟨htext, above, below, -, hfound⟩
    obtain ⟨t, -, -, ht⟩ := hfound.defines
    have hsame : b = above ++ lineFeed :: (below ++ t) := by simpa using htext.symm.trans ht
    simp [hsame] at hfeed

/-- A definition has a site, and behind its head and blanks there is no other. -/
theorem Definition.exists_site {head gap tail name behind : Text}
    (h : Definition head gap tail name behind) (lead : Text) :
    ∃ s : Site, s.Found lead ∧ s.name = name ∧ s.text = lead ++ head ++ gap ++ tail ++ behind ∧
      s.before.length ≤ (lead ++ head ++ gap).length ∧
      ∀ s' : Site, s'.text = s.text → s'.Found (lead ++ head ++ gap) → s' = s := by
  cases h with
  | declared hkeyword hblank hne hlongest =>
    refine ⟨_, .declared hkeyword hblank hne hlongest, rfl, rfl, Nat.le_refl _, ?_⟩
    intro s' htext hfound
    cases hfound with
    | declared hkeyword' =>
      simp only [Site.text, List.append_assoc, List.append_cancel_left_eq] at htext
      exact (keyword_append_ne hkeyword' hlongest.1 htext).elim
    | assigned hname' hblank' =>
      -- The path behind the word is followed by an equals sign.
      simp only [Site.text, List.append_assoc, List.append_cancel_left_eq] at htext
      obtain ⟨rfl, rfl⟩ := (hname'.longestPath hblank').unique hlongest htext
      rfl
  | assigned hname hblank hrest =>
    refine ⟨_, .assigned hname hblank hrest, rfl, by simp [Site.text], by simp, ?_⟩
    intro s' htext hfound
    obtain ⟨t, _, hdefines, ht⟩ := hfound.defines
    have hequals : t = CodePoint.ofChar '=' :: behind := by
      simpa [Site.text] using ht.symm.trans htext
    have hword : (CodePoint.ofChar '=').isWord = false := by decide
    simp [hdefines.isWord _ (by rw [hequals]; rfl)] at hword

/-- On the lines of a definition there is no other: it begins where they do, or at its tail, where
only its own site is found, or it is behind them. -/
theorem Definition.cases_lead {head gap tail name behind indent lead t : Text}
    (h : Definition head gap tail name behind) (hindent : indent.Blank) (hlead : FirstOnLine lead)
    (ht : ∀ c ∈ t.head?, c.isBlank = false)
    (htext : lead ++ t = indent ++ (head ++ gap ++ tail ++ behind)) :
    lead = indent ∨ lead = indent ++ head ++ gap ∨ ∃ above below : Text, below.Blank ∧
      lead = indent ++ head ++ gap ++ tail ++ above ++ lineFeed :: below := by
  have hbody : ∀ c ∈ (head ++ gap ++ tail ++ behind).head?, c.isBlank = false :=
    Defines.head? ⟨head, gap, tail, h, rfl⟩
  rcases hlead.cases hindent htext hbody ht with ⟨rfl, -⟩ | ⟨above, below, hbelow, rfl, hfeed⟩
  · exact .inl rfl
  · right
    rw [List.append_assoc, List.append_assoc] at hfeed
    obtain ⟨more, rfl, hgap⟩ := Text.exists_behind (lineFeed_not_mem h.solid_head) hfeed
    rcases List.append_eq_append_iff.mp hgap with ⟨more, rfl, hmore⟩ | ⟨inner, rfl, hinner⟩
    · right
      obtain ⟨above, rfl, -⟩ := Text.exists_behind (lineFeed_not_mem h.solid_tail) hmore
      exact ⟨above, below, hbelow, by simp⟩
    · left
      have hblank : Text.Blank inner := fun c hc => h.blank_gap c (List.mem_append_right more hc)
      have hfeeds : Text.Blank (lineFeed :: below) :=
        List.forall_mem_cons.mpr ⟨CodePoint.isBlank_lineFeed, hbelow⟩
      obtain ⟨rfl, -⟩ := Text.split_unique hfeeds ht hblank h.head?_tail hinner
      simp

section Step

variable {indent : Text}

theorem exists_locates_of_definition {head gap tail name behind : Text} (hindent : indent.Blank)
    (h : Definition head gap tail name behind)
    (ih : ∀ next : Text, next.length < behind.length → ∃ sites, Locates next sites) :
    ∃ sites, Locates (indent ++ (head ++ gap ++ tail ++ behind)) sites := by
  obtain ⟨s₀, hfound₀, rfl, htext₀, hle₀, hother⟩ := h.exists_site indent
  obtain ⟨sites, hnames, hordered, hmem⟩ := exists_below ih (indent ++ head ++ gap ++ tail)
  refine ⟨s₀ :: sites, ?_, ?_, ?_⟩
  · rw [namesIn_append hindent, namesIn_of_defines ⟨head, gap, tail, h, rfl⟩, ← hnames,
      List.map_cons]
  · refine List.pairwise_cons.mpr ⟨?_, hordered⟩
    intro s hs
    obtain ⟨-, above, below, -, hfound⟩ := (hmem s).mp hs
    have hle := hfound.length_le
    simp only [List.length_append, List.length_cons] at hle hle₀
    omega
  · intro s
    rw [List.mem_cons]
    constructor
    · rintro (rfl | hs)
      · exact ⟨by simp [htext₀], indent, .inl hindent, hfound₀⟩
      · obtain ⟨htext, above, below, hbelow, hfound⟩ := (hmem s).mp hs
        exact ⟨by simp [htext], _, firstOnLine_append _ hbelow, hfound⟩
    · rintro ⟨htext, lead, hlead, hfound⟩
      obtain ⟨t, _, hbegins, ht⟩ := hfound.defines
      have hsame : s.text = s₀.text := by simp [htext, htext₀]
      rcases h.cases_lead hindent hlead hbegins.head? (ht.symm.trans htext) with
        rfl | rfl | ⟨above, below, hbelow, rfl⟩
      · exact .inl (hfound.unique hfound₀ hsame)
      · exact .inl (hother s hsame hfound)
      · exact .inr ((hmem s).mpr ⟨by simp [htext], above, below, hbelow, hfound⟩)

theorem exists_locates_of_not_defines {body : Text} (hindent : indent.Blank)
    (hbody : ∀ c ∈ body.head?, c.isBlank = false) (h : ∀ name behind, ¬Defines body name behind)
    (ih : ∀ next : Text, next.length < body.length → ∃ sites, Locates next sites) :
    ∃ sites, Locates (indent ++ body) sites := by
  obtain ⟨sites, hnames, hordered, hmem⟩ := exists_below ih indent
  refine ⟨sites, ?_, hordered, ?_⟩
  · rw [namesIn_append hindent, namesIn_of_not_defines hbody h, hnames]
  · intro s
    rw [hmem]
    refine and_congr_right fun htext => ⟨?_, ?_⟩
    · rintro ⟨above, below, hbelow, hfound⟩
      exact ⟨_, firstOnLine_append _ hbelow, hfound⟩
    · rintro ⟨lead, hlead, hfound⟩
      obtain ⟨t, behind, hbegins, ht⟩ := hfound.defines
      rcases hlead.cases hindent (ht.symm.trans htext) hbody hbegins.head? with
        ⟨-, rfl⟩ | ⟨above, below, hbelow, rfl, -⟩
      · exact (h _ _ hbegins).elim
      · exact ⟨above, below, hbelow, hfound⟩

end Step

private theorem exists_locates (t : Text) : ∃ sites, Locates t sites := by
  induction hlength : t.length using Nat.strong_induction_on generalizing t with
  | _ n ih =>
    obtain ⟨indent, body, hindent, hbody, rfl⟩ := exists_indent t
    rw [List.length_append] at hlength
    by_cases hdefines : ∃ name behind, Defines body name behind
    · obtain ⟨name, behind, head, gap, tail, hdefinition, rfl⟩ := hdefines
      refine exists_locates_of_definition hindent hdefinition fun next hlt => ih _ ?_ next rfl
      simp only [List.length_append] at hlength
      omega
    · simp only [not_exists] at hdefines
      exact exists_locates_of_not_defines hindent hbody hdefines fun next hlt =>
        ih _ (by omega) next rfl

private theorem noOperator_arrow (rest : Text) : NoOperator (CodePoint.ofChar '>' :: rest) := by
  simp only [NoOperator, List.head?_cons, ne_eq, Option.some.injEq]
  decide

/-- The names of a text are those of its sites in order, and its sites are the places of a declared
name, and of a name before an equals sign that begins no comparison and no match. All names that are
not declared are targets of assignments exactly if no other name stands before an arrow. -/
theorem names_are_sites (t : Text) :
    ∃ sites : List Site, sites.map Site.name = namesIn t ∧
      (sites.Pairwise fun s s' => s.before.length < s'.before.length) ∧
      (∀ s, s ∈ sites ↔ s.text = t ∧ (s.Declared ∨ ∃ rest, s.Equated rest ∧ NoOperator rest)) ∧
      ((∀ s ∈ sites, ¬s.Declared → s.IsAssignment) ↔
        ∀ s : Site, s.text = t → (∃ rest, s.Equated (CodePoint.ofChar '>' :: rest)) →
          s.Declared) := by
  obtain ⟨sites, hnames, hordered, hmem⟩ := exists_locates t
  simp only [Site.isFound_iff] at hmem
  refine ⟨sites, hnames, hordered, hmem, ?_, ?_⟩
  · rintro hassigned s htext ⟨rest, harrow⟩
    by_contra hdeclared
    have hs : s ∈ sites := (hmem s).mpr ⟨htext, .inr ⟨_, harrow, noOperator_arrow rest⟩⟩
    obtain ⟨rest', hequated, -, hhead⟩ := hassigned s hs hdeclared
    rw [← harrow.unique hequated] at hhead
    exact hhead rfl
  · intro harrow s hs hdeclared
    obtain ⟨htext, hfound⟩ := (hmem s).mp hs
    obtain ⟨rest, hequated, hrest⟩ := hfound.resolve_left hdeclared
    refine ⟨rest, hequated, hrest, ?_⟩
    intro hhead
    obtain ⟨rest, rfl⟩ := List.head?_eq_some_iff.mp hhead
    exact hdeclared (harrow s htext ⟨rest, hequated⟩)

/-- A constant that is assigned, and one that is only the key of an entry. -/
def labels : Text := "LABELS = \x7b\n  DRAFT => 1\n\x7d\n"

/-- The key of the entry is reported, though its only site is neither declared nor assigned. -/
theorem names_labels : namesIn labels = [("LABELS" : Text), "DRAFT"] ∧
    ∀ s : Site, s.text = labels → s.name = "DRAFT" → ¬s.Declared ∧ ¬s.IsAssignment := by
  refine ⟨by decide +kernel, ?_⟩
  rintro ⟨before, name, behind⟩ htext rfl
  have hsplit : Text.ofString "LABELS = \x7b\n  " ++
      CodePoint.ofChar 'D' :: (Text.ofString "RAFT" ++ Text.ofString " => 1\n\x7d\n") =
        before ++ CodePoint.ofChar 'D' :: (Text.ofString "RAFT" ++ behind) := by
    rw [Site.text, List.append_assoc] at htext
    exact htext.symm
  obtain ⟨rfl, -, hrest⟩ := (List.append_cons_inj_of_notMem (by decide) (by decide)).mp hsplit
  obtain rfl := List.append_cancel_left hrest
  constructor
  · rintro ⟨lead, keyword, gap, -, hkeyword, -, -, -, hbefore⟩
    have hlower : CodePoint.ofChar 'c' ∉ Text.ofString "LABELS = \x7b\n  " ∧
        CodePoint.ofChar 'm' ∉ Text.ofString "LABELS = \x7b\n  " := by decide
    change Text.ofString "LABELS = \x7b\n  " = lead ++ keyword ++ gap at hbefore
    rw [hbefore] at hlower
    rcases hkeyword with rfl | rfl <;> simp [Text.ofString] at hlower
  · rintro ⟨rest, hequated, -, hhead⟩
    have hblank : Text.Blank [CodePoint.ofChar ' '] := List.forall_mem_singleton.mpr (by decide)
    have harrow : Site.Equated _ (Text.ofString "> 1\n\x7d\n") :=
      ⟨hequated.1, hequated.2.1, _, hblank, rfl⟩
    rw [hequated.unique harrow] at hhead
    exact hhead rfl

end Constant

end RubyLanguageServer
