import RubyLanguageServer.Proofs.JsonGrammar
/-!
# The reader and the language

What the reader finds can be derived in the grammar. What can be derived is found, unless an integer
with too many digits stands in it: then the reader has already stopped there, and the text up to
that integer leads to a value in the grammar.
-/
namespace RubyLanguageServer

namespace Entries

variable {α : Type}

def last? (key : Text) (pairs : List (Text × α)) : Option α :=
  (pairs.filter fun p => p.1 = key).getLast?.map Prod.snd

private theorem last?_concat (key : Text) (pairs : List (Text × α)) (p : Text × α) :
    last? key (pairs ++ [p]) = if p.1 = key then some p.2 else last? key pairs := by
  by_cases h : p.1 = key <;> simp [last?, h]

theorem find?_ofList (key : Text) (pairs : List (Text × α)) :
    find? key (ofList pairs) = last? key pairs := by
  induction pairs using List.reverseRecOn with
  | nil => rfl
  | append_singleton pairs p ih =>
    have hinsert : ofList (pairs ++ [p]) = insert p.1 p.2 (ofList pairs) := by
      simp [ofList]
    rw [hinsert, last?_concat, ← ih]
    by_cases h : p.1 = key
    · rw [if_pos h, ← h, find?_insert_self]
    · rw [if_neg h, find?_insert_of_ne h]

end Entries

namespace Json

/-! ## What the reader finds can be derived -/

private theorem derives_word : ∀ w ∈ words, Derives w.1 (.value w.2) := by
  simp only [words, List.forall_mem_cons]
  exact ⟨.null, .true, .false, .nan, .infinity, .negativeInfinity, List.forall_mem_nil _⟩

private theorem Lexeme.Writes.eq_of_integer {l : Lexeme} {u : Text} (h : l.Writes u)
    (hfraction : l.fraction = none) (hexponent : l.exponent = none) :
    u = sign l.negative ++ l.whole := by
  obtain ⟨-, e, he, rfl⟩ := h
  rw [hexponent] at he
  cases he
  simp [Lexeme.fractionText, hfraction]

private theorem Lexeme.value_of_integer {l : Lexeme} {v : Json} (hwhole : IsWhole l.whole)
    (hfraction : l.fraction = none) (hexponent : l.exponent = none) (h : l.value = .ok v) :
    v = .int (integerValue l.negative l.whole) := by
  rw [Lexeme.value.eq_def, hfraction, hexponent] at h
  obtain ⟨n, hn, h⟩ := bind_eq_ok.mp h
  cases h
  rw [Numeral.read] at hn
  split at hn
  · cases hn
    rw [value_eq_decimal hwhole.isDigit]
    rfl
  · cases hn

private theorem derives_of_lexeme {l : Lexeme} {u : Text} {v : Json} (h : l.Writes u)
    (hv : l.value = .ok v) : Derives u (.value v) := by
  by_cases hfloat : l.fraction.isSome ∨ l.exponent.isSome
  · obtain ⟨x, hx⟩ := Lexeme.value_float hfloat
    rw [hv] at hx
    cases hx
    exact .float h hfloat hv
  · simp only [not_or, Option.not_isSome_iff_eq_none] at hfloat
    rw [h.eq_of_integer hfloat.1 hfloat.2, Lexeme.value_of_integer h.1.whole hfloat.1 hfloat.2 hv]
    exact .integer l.negative h.1.whole

private theorem derives_of_atom {t rest : Text} {v : Json} (h : atom t = .ok (v, rest)) :
    ∃ u, t = u ++ rest ∧ Derives u (.value v) := by
  rw [atom] at h
  split at h
  · rename_i hword
    cases h
    obtain ⟨⟨word, v'⟩, hmem, hfound⟩ := List.exists_of_findSome?_eq_some hword
    obtain ⟨rest', hrest, heq⟩ := Option.map_eq_some_iff.mp hfound
    cases heq
    exact ⟨word, eq_append_of_after? hrest, derives_word _ hmem⟩
  · split at h
    · cases h
    · rename_i hlexeme
      split at h
      · rename_i hv
        cases h
        obtain ⟨u, hu, hwrites⟩ := writes_of_lexeme? hlexeme
        exact ⟨u, hu, derives_of_lexeme hwrites hv⟩
      · cases h

/-- A name behind its opening space, and the value that is read for it. -/
theorem exists_names {qs key rest cs : Text} (hkey : string qs = .ok (key, rest))
    (hcolon : skipSpace rest = CodePoint.ofChar ':' :: cs) :
    ∃ n, CodePoint.ofChar '"' :: qs = n ++ skipSpace cs ∧ Names n key := by
  obtain ⟨k, rfl, hk⟩ := string_eq_ok_iff.mp hkey
  obtain ⟨w₂, hw₂, hrest⟩ := exists_spacing rest
  obtain ⟨w₃, hw₃, hcs⟩ := exists_spacing cs
  refine ⟨_, ?_, .intro .nil hk hw₂ hw₃⟩
  rw [hrest, hcolon]
  nth_rewrite 1 [hcs]
  simp

private theorem exists_spacing_cons {t cs : Text} {c : CodePoint} (h : skipSpace t = c :: cs) :
    ∃ w, Spacing w ∧ t = w ++ c :: cs := by
  obtain ⟨w, hw, ht⟩ := exists_spacing t
  exact ⟨w, hw, h ▸ ht⟩

private theorem Names.pad {w n key : Text} (hw : Spacing w) (h : Names n key) :
    Names (w ++ n) key := by
  cases h with
  | intro hw₁ hk hw₂ hw₃ =>
    rw [← List.append_assoc]
    exact .intro (hw.append hw₁) hk hw₂ hw₃

private theorem Derives.pad_items {w u : Text} {vs : List Json} (hw : Spacing w)
    (h : Derives u (.items vs)) : Derives (w ++ u) (.items vs) := by
  cases h with
  | lastItem hw₁ hv hw₂ =>
    rw [← List.append_assoc]
    exact .lastItem (hw.append hw₁) hv hw₂
  | item hw₁ hv hw₂ hvs =>
    rw [← List.append_assoc]
    exact .item (hw.append hw₁) hv hw₂ hvs

private theorem Derives.pad_members {w u : Text} {pairs : List (Text × Json)} (hw : Spacing w)
    (h : Derives u (.members pairs)) : Derives (w ++ u) (.members pairs) := by
  cases h with
  | lastMember hn hv hw' =>
    rw [← List.append_assoc]
    exact .lastMember (hn.pad hw) hv hw'
  | member hn hv hw' hpairs =>
    rw [← List.append_assoc]
    exact .member (hn.pad hw) hv hw' hpairs

/-- What was found is derived from the text before the rest; items and members end with the bracket
behind them. -/
def Found.Derived (t rest : Text) : Found → Prop
  | .value v => ∃ u, t = u ++ rest ∧ Derives u (.value v)
  | .items vs => ∃ u, t = u ++ CodePoint.ofChar ']' :: rest ∧ Derives u (.items vs)
  | .members before after => ∃ u pairs, t = u ++ CodePoint.ofChar '}' :: rest ∧
      Derives u (.members pairs) ∧ after = Entries.insertAll before pairs

private theorem derived_of_reads {t rest : Text} {g : Found} (h : Reads t g rest) :
    g.Derived t rest := by
  induction h with
  | string hs =>
    obtain ⟨u, rfl, hu⟩ := string_eq_ok_iff.mp hs
    exact ⟨_, by simp, .string hu⟩
  | emptyArray hspace =>
    obtain ⟨w, hw, rfl⟩ := exists_spacing_cons hspace
    exact ⟨_, by simp, .emptyArray hw⟩
  | @array cs rest vs _ ih =>
    obtain ⟨u, hu, hitems⟩ := ih
    obtain ⟨w, hw, hcs⟩ := exists_spacing cs
    refine ⟨_, ?_, .array (hitems.pad_items hw)⟩
    rw [hcs, hu]
    simp
  | emptyObject hspace =>
    obtain ⟨w, hw, rfl⟩ := exists_spacing_cons hspace
    exact ⟨_, by simp, .emptyObject hw⟩
  | @object cs rest ms _ ih =>
    obtain ⟨u, pairs, hu, hmembers, rfl⟩ := ih
    obtain ⟨w, hw, hcs⟩ := exists_spacing cs
    refine ⟨_, ?_, .object (hmembers.pad_members hw)⟩
    rw [hcs, hu]
    simp
  | atom ha => exact derives_of_atom ha
  | lastItem _ hspace ih =>
    obtain ⟨u, rfl, hv⟩ := ih
    obtain ⟨w, hw, rfl⟩ := exists_spacing_cons hspace
    exact ⟨_, by simp, .lastItem .nil hv hw⟩
  | @item t rest cs rest' v vs _ hspace _ ih ih' =>
    obtain ⟨u, rfl, hv⟩ := ih
    obtain ⟨us, hus, hvs⟩ := ih'
    obtain ⟨w, hw, rfl⟩ := exists_spacing_cons hspace
    obtain ⟨w', hw', hcs⟩ := exists_spacing cs
    refine ⟨_, ?_, .item .nil hv hw (hvs.pad_items hw')⟩
    rw [hcs, hus]
    simp
  | lastMember hkey hcolon _ hspace ih =>
    obtain ⟨n, hn, hnames⟩ := exists_names hkey hcolon
    obtain ⟨u, hu, hv⟩ := ih
    obtain ⟨w, hw, rfl⟩ := exists_spacing_cons hspace
    refine ⟨_, _, ?_, .lastMember hnames hv hw, rfl⟩
    rw [hn, hu]
    simp
  | @member qs key rest cs rest' ds rest'' v before after hkey hcolon _ hspace _ ih ih' =>
    obtain ⟨n, hn, hnames⟩ := exists_names hkey hcolon
    obtain ⟨u, hu, hv⟩ := ih
    obtain ⟨us, pairs, hus, hpairs, rfl⟩ := ih'
    obtain ⟨w, hw, rfl⟩ := exists_spacing_cons hspace
    obtain ⟨w', hw', hds⟩ := exists_spacing ds
    refine ⟨_, _, ?_, .member hnames hv hw (hpairs.pad_members hw'), rfl⟩
    rw [hn, hu, hds, hus]
    simp

/-! ## What can be derived is found -/

private theorem delimits_spacing {w : Text} (hw : Spacing w) {rest : Text} (hrest : Delimits rest) :
    Delimits (w ++ rest) := by
  cases w with
  | nil => exact hrest
  | cons c w =>
    rintro _ ⟨⟩
    have hmem : ∀ c ∈ Text.ofString " \t\n\r", c ∈ Text.ofString " \t\n\r,]\x7d" := by decide
    exact hmem c (hw c List.mem_cons_self)

private theorem delimits_cons {c : CodePoint} (hc : c ∈ Text.ofString ",]\x7d") (rest : Text) :
    Delimits (c :: rest) := by
  rintro _ ⟨⟩
  have hmem : ∀ c ∈ Text.ofString ",]\x7d", c ∈ Text.ofString " \t\n\r,]\x7d" := by decide
  exact hmem c hc

private theorem skipSpace_cons {c : CodePoint} (hc : c ∉ Text.ofString " \t\n\r") (t : Text) :
    skipSpace (c :: t) = c :: t :=
  List.dropWhile_cons_of_neg fun hspace => hc (isSpace_iff.mp hspace)

private theorem skipSpace_append_cons {w : Text} (hw : Spacing w) {c : CodePoint}
    (hc : c ∉ Text.ofString " \t\n\r") (t : Text) : skipSpace (w ++ c :: t) = c :: t := by
  rw [skipSpace_append hw, skipSpace_cons hc]

private theorem IsWhole.exists_cons {ds : Text} (h : IsWhole ds) :
    ∃ d es, ds = d :: es ∧ d.isDigit = true := by
  rcases h with rfl | ⟨e, es, rfl, -, hdigits⟩
  · exact ⟨_, _, rfl, by decide⟩
  · exact ⟨e, es, rfl, hdigits e List.mem_cons_self⟩

private theorem head_of_sign_append {ds : Text} (h : IsWhole ds) (negative : Bool) (rest : Text) :
    ∃ c cs, sign negative ++ (ds ++ rest) = c :: cs ∧ c.val < 0x80 ∧
      c ∉ Text.ofString " \t\n\r" := by
  obtain ⟨d, es, rfl, hdigit⟩ := h.exists_cons
  cases negative with
  | true => exact ⟨_, _, rfl, by decide, by decide⟩
  | false =>
    have hspace : ∀ c ∈ Text.ofString " \t\n\r", c.isDigit = false := by decide
    refine ⟨d, _, rfl, ?_, fun hmem => ?_⟩
    · simp only [CodePoint.isDigit, Bool.and_eq_true, decide_eq_true_eq] at hdigit
      omega
    · rw [hspace d hmem] at hdigit
      cases hdigit

theorem Derives.value_head {u : Text} {v : Json} (h : Derives u (.value v)) :
    ∃ c cs, u = c :: cs ∧ c.val < 0x80 ∧ c ∉ Text.ofString " \t\n\r" := by
  cases h with
  | null | true | false | nan | infinity | negativeInfinity | string | emptyArray | array
  | emptyObject | object => exact ⟨_, _, rfl, by decide, by decide⟩
  | @integer ds negative hds => simpa using head_of_sign_append hds negative []
  | float hwrites =>
    obtain ⟨hl, e, -, rfl⟩ := hwrites
    exact head_of_sign_append hl.whole _ _

private theorem Derives.skipSpace_append {u : Text} {v : Json} (h : Derives u (.value v))
    (rest : Text) :
    skipSpace (u ++ rest) = u ++ rest := by
  obtain ⟨c, cs, rfl, -, hc⟩ := h.value_head
  exact skipSpace_cons hc _

theorem reads_or_overruns_integer {ds rest : Text} (negative : Bool) (hds : IsWhole ds)
    (hrest : Delimits rest) :
    Reads (sign negative ++ ds ++ rest) (.value (.int (integerValue negative ds))) rest ∨
      ∃ n, Overruns n .value (sign negative ++ ds ++ rest) := by
  let l : Lexeme := ⟨negative, ds, none, none⟩
  have hwrites : l.Writes (sign negative ++ ds) :=
    ⟨⟨hds, fun _ h => absurd h (by simp [l]), fun _ h => absurd h (by simp [l])⟩, [], .none,
      by simp [l, Lexeme.fractionText]⟩
  have hlexeme := lexeme?_of_writes hwrites hrest
  cases hv : l.value with
  | ok v =>
    have heq : v = .int (integerValue negative ds) :=
      Lexeme.value_of_integer (l := l) hds rfl rfl hv
    rw [heq] at hv
    exact .inl (.atom (atom_of_lexeme hlexeme hv))
  | error e =>
    obtain ⟨-, -, hlimit, -⟩ := Lexeme.value_eq_error_iff.mp hv
    exact .inr ⟨ds.length, .integer ⟨l, rest, hlexeme, rfl, rfl, rfl, hlimit⟩⟩

private theorem string_of_quotes {k key : Text} (h : Quotes k key) (rest : Text) :
    string (k ++ CodePoint.ofChar '"' :: rest) = .ok (key, rest) :=
  string_eq_ok_iff.mpr ⟨k, rfl, h⟩

theorem Names.read {n key : Text} (h : Names n key) (t : Text) :
    ∃ qs rest cs, skipSpace (n ++ t) = CodePoint.ofChar '"' :: qs ∧
      string qs = .ok (key, rest) ∧ skipSpace rest = CodePoint.ofChar ':' :: cs ∧
      skipSpace cs = skipSpace t := by
  cases h with
  | @intro w₁ w₂ w₃ k _ hw₁ hk hw₂ hw₃ =>
    refine ⟨_, w₂ ++ CodePoint.ofChar ':' :: (w₃ ++ t), w₃ ++ t, ?_, string_of_quotes hk _, ?_,
      Json.skipSpace_append hw₃ t⟩
    · simp only [List.append_assoc, List.cons_append]
      exact skipSpace_append_cons hw₁ (by decide) _
    · exact skipSpace_append_cons hw₂ (by decide) _

/-- What is derived from a text is read from it, or the reader stops for too many digits. -/
def Phrase.IsRead (u : Text) : Phrase → Prop
  | .value v => ∀ rest, Delimits rest →
      Reads (u ++ rest) (.value v) rest ∨ ∃ n, Overruns n .value (u ++ rest)
  | .items vs => ∀ rest,
      Reads (skipSpace (u ++ CodePoint.ofChar ']' :: rest)) (.items vs) rest ∨
        ∃ n, Overruns n .items (skipSpace (u ++ CodePoint.ofChar ']' :: rest))
  | .members pairs => ∀ before rest,
      Reads (skipSpace (u ++ CodePoint.ofChar '}' :: rest))
        (.members before (Entries.insertAll before pairs)) rest ∨
        ∃ n, Overruns n .members (skipSpace (u ++ CodePoint.ofChar '}' :: rest))

private theorem isRead_of_derives {u : Text} {p : Phrase} (h : Derives u p) : p.IsRead u := by
  have hword {word : Text} {v : Json} (hmem : (word, v) ∈ words) :
      (Phrase.value v).IsRead word := fun rest _ => .inl (.atom (atom_of_word hmem rest))
  induction h with
  | null => exact hword (by simp [words])
  | true => exact hword (by simp [words])
  | false => exact hword (by simp [words])
  | nan => exact hword (by simp [words])
  | infinity => exact hword (by simp [words])
  | negativeInfinity => exact hword (by simp [words])
  | integer negative hds =>
    intro rest hrest
    exact reads_or_overruns_integer negative hds hrest
  | float hwrites _ hv =>
    intro rest hrest
    exact .inl (.atom (atom_of_lexeme (lexeme?_of_writes hwrites hrest) hv))
  | string hu =>
    intro rest _
    simp only [List.cons_append, List.append_assoc, List.nil_append]
    exact .inl (.string (string_of_quotes hu rest))
  | emptyArray hw =>
    intro rest _
    simp only [List.cons_append, List.append_assoc, List.nil_append]
    exact .inl (.emptyArray (skipSpace_append_cons hw (by decide) rest))
  | array _ ih =>
    intro rest _
    simp only [List.cons_append, List.append_assoc, List.nil_append]
    rcases ih rest with hitems | ⟨n, hn⟩
    · exact .inl (.array hitems)
    · exact .inr ⟨n, .array hn⟩
  | emptyObject hw =>
    intro rest _
    simp only [List.cons_append, List.append_assoc, List.nil_append]
    exact .inl (.emptyObject (skipSpace_append_cons hw (by decide) rest))
  | object _ ih =>
    intro rest _
    simp only [List.cons_append, List.append_assoc, List.nil_append]
    rcases ih [] rest with hmembers | ⟨n, hn⟩
    · exact .inl (.object hmembers)
    · exact .inr ⟨n, .object hn⟩
  | @lastItem w₁ u w₂ v hw₁ hv hw₂ ih =>
    intro rest
    simp only [List.append_assoc]
    rw [skipSpace_append hw₁, hv.skipSpace_append]
    have hclose : Delimits (CodePoint.ofChar ']' :: rest) := delimits_cons (by decide) rest
    rcases ih _ (delimits_spacing hw₂ hclose) with hreads | ⟨n, hn⟩
    · exact .inl (.lastItem hreads (skipSpace_append_cons hw₂ (by decide) rest))
    · exact .inr ⟨n, .item hn⟩
  | @item w₁ u w₂ us v vs hw₁ hv hw₂ _ ih ih' =>
    intro rest
    simp only [List.append_assoc, List.cons_append]
    rw [skipSpace_append hw₁, hv.skipSpace_append]
    have hcomma : Delimits (CodePoint.ofChar ',' :: (us ++ CodePoint.ofChar ']' :: rest)) :=
      delimits_cons (by decide) _
    have hskip := skipSpace_append_cons hw₂ (by decide : CodePoint.ofChar ',' ∉ _)
      (us ++ CodePoint.ofChar ']' :: rest)
    rcases ih _ (delimits_spacing hw₂ hcomma) with hreads | ⟨n, hn⟩
    · rcases ih' rest with hitems | ⟨n, hn⟩
      · exact .inl (.item hreads hskip hitems)
      · exact .inr ⟨n, .laterItem hreads hskip hn⟩
    · exact .inr ⟨n, .item hn⟩
  | @lastMember n u w key v hn hv hw ih =>
    intro before rest
    simp only [List.append_assoc]
    obtain ⟨qs, rest', cs, hqs, hkey, hcolon, hcs⟩ :=
      hn.read (u ++ (w ++ CodePoint.ofChar '}' :: rest))
    rw [hv.skipSpace_append] at hcs
    rw [hqs]
    have hclose : Delimits (CodePoint.ofChar '}' :: rest) := delimits_cons (by decide) rest
    rcases ih _ (delimits_spacing hw hclose) with hreads | ⟨n, hn⟩
    · rw [← hcs] at hreads
      exact .inl (.lastMember hkey hcolon hreads (skipSpace_append_cons hw (by decide) rest))
    · rw [← hcs] at hn
      exact .inr ⟨n, .member hkey hcolon hn⟩
  | @member n u w us key v pairs hn hv hw _ ih ih' =>
    intro before rest
    simp only [List.append_assoc, List.cons_append]
    obtain ⟨qs, rest', cs, hqs, hkey, hcolon, hcs⟩ :=
      hn.read (u ++ (w ++ CodePoint.ofChar ',' :: (us ++ CodePoint.ofChar '}' :: rest)))
    rw [hv.skipSpace_append] at hcs
    rw [hqs]
    have hcomma : Delimits (CodePoint.ofChar ',' :: (us ++ CodePoint.ofChar '}' :: rest)) :=
      delimits_cons (by decide) _
    have hskip := skipSpace_append_cons hw (by decide : CodePoint.ofChar ',' ∉ _)
      (us ++ CodePoint.ofChar '}' :: rest)
    rcases ih _ (delimits_spacing hw hcomma) with hreads | ⟨n, hn⟩
    · rw [← hcs] at hreads
      rcases ih' (Entries.insert key v before) rest with hmembers | ⟨n, hn⟩
      · exact .inl (.member hkey hcolon hreads hskip hmembers)
      · exact .inr ⟨n, .laterMember hkey hcolon hreads hskip hn⟩
    · rw [← hcs] at hn
      exact .inr ⟨n, .member hkey hcolon hn⟩

/-! ## Integers with too many digits -/

/-- The text does not go on with a digit, a fraction or an exponent, which would belong to an
integer before it. -/
structure EndsInteger (rest : Text) : Prop where
  digit : NoDigit rest
  fraction : ∀ d, d.isDigit = true → ¬[CodePoint.ofChar '.', d] <+: rest
  exponent : ∀ mark signs d, mark = CodePoint.ofChar 'e' ∨ mark = CodePoint.ofChar 'E' →
    signs = [] ∨ signs = [CodePoint.ofChar '+'] ∨ signs = [CodePoint.ofChar '-'] →
    d.isDigit = true → ¬mark :: (signs ++ [d]) <+: rest

/-- What may stand before a value, from the beginning of a part on. -/
inductive Leads : Part → Text → Prop
  | value : Leads .value []
  | array {b : Text} : Leads .items b → Leads .value (CodePoint.ofChar '[' :: b)
  | object {b : Text} : Leads .members b → Leads .value (CodePoint.ofChar '{' :: b)
  | item {w b : Text} : Spacing w → Leads .value b → Leads .items (w ++ b)
  | laterItem {w₁ u w₂ b : Text} {v : Json} : Spacing w₁ → Derives u (.value v) → Spacing w₂ →
      Leads .items b → Leads .items (w₁ ++ (u ++ (w₂ ++ CodePoint.ofChar ',' :: b)))
  | member {n key b : Text} : Names n key → Leads .value b → Leads .members (n ++ b)
  | laterMember {n key u w b : Text} {v : Json} : Names n key → Derives u (.value v) → Spacing w →
      Leads .members b → Leads .members (n ++ (u ++ (w ++ CodePoint.ofChar ',' :: b)))

/-- An integer of more than 4300 digits stands at the beginning of the text. -/
def LongLiteral (t : Text) : Prop :=
  ∃ (negative : Bool) (ds rest : Text), IsWhole ds ∧ 4300 < ds.length ∧ EndsInteger rest ∧
    t = sign negative ++ (ds ++ rest)

/-- An integer of more than 4300 digits stands where a value may stand. -/
def HasLongLiteral (t : Text) : Prop :=
  ∃ w before literal, Spacing w ∧ Leads .value before ∧ LongLiteral literal ∧
    t = w ++ (before ++ literal)

theorem HasLongLiteral.length_lt {t : Text} (h : HasLongLiteral t) : 4300 < t.length := by
  obtain ⟨w, before, literal, -, -, ⟨negative, ds, rest, -, hlong, -, rfl⟩, rfl⟩ := h
  simp only [List.length_append]
  omega

private theorem Leads.pad_items {w b : Text} (hw : Spacing w) (h : Leads .items b) :
    Leads .items (w ++ b) := by
  cases h with
  | item hw' hb =>
    rw [← List.append_assoc]
    exact .item (hw.append hw') hb
  | laterItem hw₁ hv hw₂ hb =>
    rw [← List.append_assoc]
    exact .laterItem (hw.append hw₁) hv hw₂ hb

private theorem Leads.pad_members {w b : Text} (hw : Spacing w) (h : Leads .members b) :
    Leads .members (w ++ b) := by
  cases h with
  | member hn hb =>
    rw [← List.append_assoc]
    exact .member (hn.pad hw) hb
  | laterMember hn hv hw' hb =>
    rw [← List.append_assoc]
    exact .laterMember (hn.pad hw) hv hw' hb

private theorem exponent?_ne_none {mark d : CodePoint} {signs : Text} (more : Text)
    (hmark : mark = CodePoint.ofChar 'e' ∨ mark = CodePoint.ofChar 'E')
    (hsigns : signs = [] ∨ signs = [CodePoint.ofChar '+'] ∨ signs = [CodePoint.ofChar '-'])
    (hd : d.isDigit = true) : exponent? (mark :: (signs ++ d :: more)) ≠ none := by
  have hmark' : (mark = CodePoint.ofChar 'e' || mark = CodePoint.ofChar 'E') = true := by
    simpa using hmark
  have hminus : d ≠ CodePoint.ofChar '-' := fun hc => by rw [hc] at hd; cases hd
  have hplus : d ≠ CodePoint.ofChar '+' := fun hc => by rw [hc] at hd; cases hd
  have hpm : CodePoint.ofChar '+' ≠ CodePoint.ofChar '-' := by decide
  rcases hsigns with rfl | rfl | rfl
  · simp [exponent?, hmark', hminus, hplus, digits, hd]
  · simp [exponent?, hmark', hpm, digits, hd]
  · simp [exponent?, hmark', digits, hd]

private theorem longLiteral_of_longInteger {digits : Nat} {t : Text} (h : LongInteger digits t) :
    LongLiteral t := by
  obtain ⟨l, rest, hlexeme, hfraction, hexponent, rfl, hlimit⟩ := h
  obtain ⟨body, afterWhole, afterFraction, hsign, hwhole, hfraction?, hsame, hexponent?, hend⟩ :=
    lexeme?_parts hlexeme
  rw [hfraction] at hfraction?
  rw [hexponent, hsame hfraction] at hexponent?
  obtain ⟨rfl, hisWhole, hdigit⟩ := eq_of_whole? hwhole
  have hlimit : 4300 < l.whole.length := hlimit
  refine ⟨l.negative, l.whole, afterWhole, hisWhole, hlimit, ⟨hdigit (by omega), ?_, ?_⟩, ?_⟩
  · rintro d hd ⟨more, rfl⟩
    simp [fraction?, hd] at hfraction?
  · rintro mark signs d hmark hsigns hd ⟨more, rfl⟩
    refine exponent?_ne_none more hmark hsigns hd ?_
    simpa using hexponent?
  · rcases hsign with ⟨hneg, rfl⟩ | ⟨hneg, rfl⟩ <;> rw [hneg] <;> rfl

private theorem leads_of_overruns {digits : Nat} {p : Part} {t : Text} (h : Overruns digits p t) :
    ∃ before literal, t = before ++ literal ∧ Leads p before ∧ LongLiteral literal := by
  induction h with
  | integer hint => exact ⟨[], _, rfl, .value, longLiteral_of_longInteger hint⟩
  | @array cs _ ih =>
    obtain ⟨before, literal, hcs, hleads, hlong⟩ := ih
    obtain ⟨w, hw, hspace⟩ := exists_spacing cs
    refine ⟨_, literal, ?_, .array (hleads.pad_items hw), hlong⟩
    rw [hspace, hcs]
    simp
  | @object cs _ ih =>
    obtain ⟨before, literal, hcs, hleads, hlong⟩ := ih
    obtain ⟨w, hw, hspace⟩ := exists_spacing cs
    refine ⟨_, literal, ?_, .object (hleads.pad_members hw), hlong⟩
    rw [hspace, hcs]
    simp
  | item _ ih =>
    obtain ⟨before, literal, rfl, hleads, hlong⟩ := ih
    exact ⟨_, literal, rfl, .item .nil hleads, hlong⟩
  | @laterItem t rest cs v hreads hcomma _ ih =>
    obtain ⟨before, literal, hcs, hleads, hlong⟩ := ih
    obtain ⟨u, rfl, hv⟩ := derived_of_reads hreads
    obtain ⟨w, hw, rfl⟩ := exists_spacing_cons hcomma
    obtain ⟨w', hw', hspace⟩ := exists_spacing cs
    refine ⟨_, literal, ?_, .laterItem .nil hv hw (hleads.pad_items hw'), hlong⟩
    rw [hspace, hcs]
    simp
  | member hkey hcolon _ ih =>
    obtain ⟨before, literal, hcs, hleads, hlong⟩ := ih
    obtain ⟨n, hn, hnames⟩ := exists_names hkey hcolon
    refine ⟨_, literal, ?_, .member hnames hleads, hlong⟩
    rw [hn, hcs]
    simp
  | @laterMember qs key rest cs rest' ds v hkey hcolon hreads hcomma _ ih =>
    obtain ⟨before, literal, hds, hleads, hlong⟩ := ih
    obtain ⟨n, hn, hnames⟩ := exists_names hkey hcolon
    obtain ⟨u, hu, hv⟩ := derived_of_reads hreads
    obtain ⟨w, hw, rfl⟩ := exists_spacing_cons hcomma
    obtain ⟨w', hw', hspace⟩ := exists_spacing ds
    refine ⟨_, literal, ?_, .laterMember hnames hv hw (hleads.pad_members hw'), hlong⟩
    rw [hn, hu, hspace, hds]
    simp

/-! ## Whole texts -/

/-- A whole text that denotes a value: space may stand around it. -/
def Denotes (t : Text) (v : Json) : Prop :=
  ∃ w u w', Spacing w ∧ Derives u (.value v) ∧ Spacing w' ∧ t = w ++ (u ++ w')

theorem denotes_of_read {t : Text} {v : Json} (h : read t = .ok v) : Denotes t v := by
  obtain ⟨-, rest, hreads, hrest⟩ := read_eq_ok_iff.mp h
  obtain ⟨u, hu, hv⟩ := derived_of_reads hreads
  obtain ⟨w, hw, ht⟩ := exists_spacing t
  obtain ⟨w', hw', hspace⟩ := exists_spacing rest
  rw [hrest, List.append_nil] at hspace
  subst hspace
  exact ⟨w, u, rest, hw, hv, hw', hu ▸ ht⟩

theorem hasLongLiteral_of_read {t : Text} {e : Numeral.Excess}
    (h : read t = .error (.excess e)) : HasLongLiteral t := by
  obtain ⟨digits, -, hoverruns⟩ := read_eq_excess_iff.mp h
  obtain ⟨before, literal, hbefore, hleads, hlong⟩ := leads_of_overruns hoverruns
  obtain ⟨w, hw, ht⟩ := exists_spacing t
  exact ⟨w, before, literal, hw, hleads, hlong, hbefore ▸ ht⟩

private theorem read_of_denotes {t : Text} {v : Json} (h : Denotes t v) :
    read t = .ok v ∨ ∃ e, read t = .error (.excess e) := by
  obtain ⟨w, u, w', hw, hv, hw', rfl⟩ := h
  have hdelimits : Delimits w' := by
    have hnil : Delimits [] := fun _ hc => absurd hc (by simp)
    simpa using delimits_spacing hw' hnil
  have hskip : skipSpace (w ++ (u ++ w')) = u ++ w' := by
    rw [skipSpace_append hw, hv.skipSpace_append]
  rcases isRead_of_derives hv w' hdelimits with hreads | ⟨n, hn⟩
  · rw [← hskip] at hreads
    refine .inl (read_eq_ok_iff.mpr ⟨?_, w', hreads, skipSpace_of_spacing hw'⟩)
    obtain ⟨c, cs, rfl, hc, -⟩ := hv.value_head
    cases w with
    | nil =>
      intro hmark
      have hval : c.val = 0xfeff := Option.some.inj hmark
      omega
    | cons d w =>
      intro hmark
      have hval : d.val = 0xfeff := Option.some.inj hmark
      have hspace : ∀ d ∈ Text.ofString " \t\n\r", d.val ≠ 0xfeff := by decide
      exact hspace d (hw d List.mem_cons_self) hval
  · rw [← hskip] at hn
    exact .inr ⟨.read n, read_eq_excess_iff.mpr ⟨n, rfl, hn⟩⟩

/-- Without an integer of too many digits a text is read exactly as what it denotes. -/
theorem read_eq_ok_iff_denotes {t : Text} (h : ¬HasLongLiteral t) {v : Json} :
    read t = .ok v ↔ Denotes t v := by
  constructor
  · exact denotes_of_read
  · intro hv
    rcases read_of_denotes hv with hread | ⟨e, he⟩
    · exact hread
    · exact absurd (hasLongLiteral_of_read he) h

end Json

end RubyLanguageServer
