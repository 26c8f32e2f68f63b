import RubyLanguageServer.Proofs.Framing
import RubyLanguageServer.Proofs.Rereading
/-!
# The language of JSON texts

The texts that denote a value, said as a grammar: `Derives` has one rule for each form of a value.
Besides the words of JSON there are three for numbers that are not finite. The strings and the
numbers of the grammar are those that the reader takes.
-/
namespace RubyLanguageServer

namespace Json

/-! ## The grammar -/

/-- Insignificant space: space, tab, line feed and carriage return. -/
def Spacing (w : Text) : Prop := ∀ c ∈ w, c ∈ Text.ofString " \t\n\r"

/-- A hexadecimal digit, small or capital, and its value. -/
def HexDigit (c : CodePoint) (n : Nat) : Prop := n < 16 ∧ (c = .hexDigit n ∨ c = .hexDigitUpper n)

/-- The letters that may stand behind a backslash, each with what it stands for. -/
def shortEscapes : List (CodePoint × CodePoint) := [
  (CodePoint.ofChar '"', CodePoint.ofChar '"'), (CodePoint.ofChar '\\', CodePoint.ofChar '\\'),
  (CodePoint.ofChar '/', CodePoint.ofChar '/'), (CodePoint.ofChar 'b', .ofNat 8),
  (CodePoint.ofChar 'f', .ofNat 12), (CodePoint.ofChar 'n', .ofNat 10),
  (CodePoint.ofChar 'r', .ofNat 13), (CodePoint.ofChar 't', .ofNat 9)]

inductive UnicodeEscape : Text → CodePoint → Prop
  | digits {a b c d : CodePoint} {i j k l : Nat} :
      HexDigit a i → HexDigit b j → HexDigit c k → HexDigit d l →
      UnicodeEscape [CodePoint.ofChar '\\', CodePoint.ofChar 'u', a, b, c, d]
        (.ofNat (i * 0x1000 + j * 0x100 + k * 0x10 + l))

/-- What stands between the quotes of a string, and the text that it denotes. A high surrogate and a
low one make a pair if both are escaped and nothing is between them. -/
inductive Quotes : Text → Text → Prop
  | nil : Quotes [] []
  | plain {c : CodePoint} {u s : Text} : c ≠ CodePoint.ofChar '"' → c ≠ CodePoint.ofChar '\\' →
      0x20 ≤ c.val → Quotes u s → Quotes (c :: u) (c :: s)
  | short {e c : CodePoint} {u s : Text} : (e, c) ∈ shortEscapes → Quotes u s →
      Quotes (CodePoint.ofChar '\\' :: e :: u) (c :: s)
  | pair {p q u s : Text} {high low : CodePoint} :
      UnicodeEscape p high → high.isHighSurrogate = true →
      UnicodeEscape q low → low.isLowSurrogate = true → Quotes u s →
      Quotes (p ++ (q ++ u))
        (.ofNat (0x10000 + (high.val - 0xd800) * 0x400 + (low.val - 0xdc00)) :: s)
  | unicode {p u s : Text} {c : CodePoint} : UnicodeEscape p c →
      (c.isHighSurrogate = true →
        ∀ q low, UnicodeEscape q low → low.isLowSurrogate = true → ¬q <+: u) →
      Quotes u s → Quotes (p ++ u) (c :: s)

inductive ExponentForm : Option (Bool × Text) → Text → Prop
  | none : ExponentForm none []
  | some {mark : CodePoint} {negative : Bool} {ds signs : Text} :
      mark = CodePoint.ofChar 'e' ∨ mark = CodePoint.ofChar 'E' →
      signs = sign negative ∨ negative = false ∧ signs = [CodePoint.ofChar '+'] →
      ExponentForm (some (negative, ds)) (mark :: (signs ++ ds))

/-- The ways to write a number with the given parts. -/
def Lexeme.Writes (l : Lexeme) (t : Text) : Prop :=
  l.WellFormed ∧ ∃ e, ExponentForm l.exponent e ∧
    t = sign l.negative ++ (l.whole ++ (l.fractionText ++ e))

/-- The integer that digits behind a sign denote. -/
def integerValue (negative : Bool) (ds : Text) : Int :=
  if negative then -(decimal ds : Int) else decimal ds

/-- A name in an object with its colon, and all the space around them. -/
inductive Names : Text → Text → Prop
  | intro {w₁ w₂ w₃ k key : Text} : Spacing w₁ → Quotes k key → Spacing w₂ → Spacing w₃ →
      Names (w₁ ++ CodePoint.ofChar '"' :: (k ++ CodePoint.ofChar '"' ::
        (w₂ ++ CodePoint.ofChar ':' :: w₃))) key

/-- What a stretch of text denotes: a value, or the items or members between brackets. -/
inductive Phrase where
  | value (v : Json)
  | items (vs : List Json)
  | members (pairs : List (Text × Json))

/-- The stretches of text that denote something, with all the space inside them. -/
inductive Derives : Text → Phrase → Prop
  | null : Derives (Text.ofString "null") (.value .null)
  | true : Derives (Text.ofString "true") (.value (.bool true))
  | false : Derives (Text.ofString "false") (.value (.bool false))
  | nan : Derives (Text.ofString "NaN") (.value (.float .nan))
  | infinity : Derives (Text.ofString "Infinity") (.value (.float (.infinite false)))
  | negativeInfinity : Derives (Text.ofString "-Infinity") (.value (.float (.infinite true)))
  | integer {ds : Text} (negative : Bool) : IsWhole ds →
      Derives (sign negative ++ ds) (.value (.int (integerValue negative ds)))
  | float {l : Lexeme} {u : Text} {x : Binary64} : l.Writes u →
      l.fraction.isSome ∨ l.exponent.isSome → l.value = .ok (.float x) →
      Derives u (.value (.float x))
  | string {u s : Text} : Quotes u s →
      Derives (CodePoint.ofChar '"' :: (u ++ [CodePoint.ofChar '"'])) (.value (.text s))
  | emptyArray {w : Text} : Spacing w →
      Derives (CodePoint.ofChar '[' :: (w ++ [CodePoint.ofChar ']'])) (.value (.array []))
  | array {u : Text} {vs : List Json} : Derives u (.items vs) →
      Derives (CodePoint.ofChar '[' :: (u ++ [CodePoint.ofChar ']'])) (.value (.array vs))
  | emptyObject {w : Text} : Spacing w →
      Derives (CodePoint.ofChar '{' :: (w ++ [CodePoint.ofChar '}'])) (.value (.object []))
  | object {u : Text} {pairs : List (Text × Json)} : Derives u (.members pairs) →
      Derives (CodePoint.ofChar '{' :: (u ++ [CodePoint.ofChar '}']))
        (.value (.object (Entries.ofList pairs)))
  | lastItem {w₁ u w₂ : Text} {v : Json} : Spacing w₁ → Derives u (.value v) → Spacing w₂ →
      Derives (w₁ ++ (u ++ w₂)) (.items [v])
  | item {w₁ u w₂ us : Text} {v : Json} {vs : List Json} :
      Spacing w₁ → Derives u (.value v) → Spacing w₂ → Derives us (.items vs) →
      Derives (w₁ ++ (u ++ (w₂ ++ CodePoint.ofChar ',' :: us))) (.items (v :: vs))
  | lastMember {n u w key : Text} {v : Json} : Names n key → Derives u (.value v) → Spacing w →
      Derives (n ++ (u ++ w)) (.members [(key, v)])
  | member {n u w us key : Text} {v : Json} {pairs : List (Text × Json)} :
      Names n key → Derives u (.value v) → Spacing w → Derives us (.members pairs) →
      Derives (n ++ (u ++ (w ++ CodePoint.ofChar ',' :: us))) (.members ((key, v) :: pairs))

/-! ## Space -/

theorem isSpace_iff {c : CodePoint} : isSpace c = true ↔ c ∈ Text.ofString " \t\n\r" := by
  constructor
  · intro h
    simp only [isSpace, Bool.or_eq_true, beq_iff_eq] at h
    have hmem : ∀ n, ((n = 0x20 ∨ n = 9) ∨ n = 10) ∨ n = 13 →
        CodePoint.ofNat n ∈ Text.ofString " \t\n\r" := by
      rintro n (((rfl | rfl) | rfl) | rfl) <;> decide
    have hc := hmem c.val h
    rwa [CodePoint.ofNat_val] at hc
  · revert c
    decide

theorem skipSpace_append {w : Text} (hw : Spacing w) (t : Text) :
    skipSpace (w ++ t) = skipSpace t :=
  List.dropWhile_append_of_pos fun c hc => isSpace_iff.mpr (hw c hc)

theorem skipSpace_of_spacing {w : Text} (hw : Spacing w) : skipSpace w = [] :=
  List.dropWhile_eq_nil_iff.mpr fun c hc => isSpace_iff.mpr (hw c hc)

theorem exists_spacing (t : Text) : ∃ w, Spacing w ∧ t = w ++ skipSpace t :=
  ⟨t.takeWhile isSpace, fun _ hc => isSpace_iff.mp (List.mem_takeWhile_imp hc),
    List.takeWhile_append_dropWhile.symm⟩

theorem Spacing.append {w w' : Text} (hw : Spacing w) (hw' : Spacing w') : Spacing (w ++ w') :=
  List.forall_mem_append.mpr ⟨hw, hw'⟩

theorem Spacing.nil : Spacing [] := List.forall_mem_nil _

/-! ## Strings -/

theorem hexDigit_iff {c : CodePoint} {n : Nat} : HexDigit c n ↔ c.hexValue? = some n := by
  constructor
  · rintro ⟨hn, rfl | rfl⟩
    · exact CodePoint.hexValue?_hexDigit n hn
    · exact CodePoint.hexValue?_hexDigitUpper n hn
  · intro h
    have hval {k : Nat} (hk : c.val = k) : c = .ofNat k := hk ▸ (CodePoint.ofNat_val c).symm
    simp only [CodePoint.hexValue?, CodePoint.isDigit, Bool.and_eq_true, decide_eq_true_eq] at h
    split at h
    · cases h
      refine ⟨by omega, .inl ?_⟩
      rw [CodePoint.hexDigit, if_pos (by omega)]
      exact hval (by omega)
    · split at h
      · cases h
        refine ⟨by omega, .inr ?_⟩
        rw [CodePoint.hexDigitUpper, if_neg (by omega)]
        exact hval (by omega)
      · split at h
        · cases h
          refine ⟨by omega, .inl ?_⟩
          rw [CodePoint.hexDigit, if_neg (by omega)]
          exact hval (by omega)
        · cases h

theorem unicodeEscape_iff {p : Text} {x : CodePoint} :
    UnicodeEscape p x ↔ ∃ a b c d n,
      p = [CodePoint.ofChar '\\', CodePoint.ofChar 'u', a, b, c, d] ∧
      hexValue? a b c d = some n ∧ x = .ofNat n := by
  constructor
  · rintro ⟨ha, hb, hc, hd⟩
    rw [hexDigit_iff] at ha hb hc hd
    refine ⟨_, _, _, _, _, rfl, ?_, rfl⟩
    simp only [hexValue?, ha, hb, hc, hd]
    show some _ = some _
    congr 1
    omega
  · rintro ⟨a, b, c, d, n, rfl, h, rfl⟩
    obtain ⟨i, hi, h⟩ := Option.bind_eq_some_iff.mp h
    obtain ⟨j, hj, h⟩ := Option.bind_eq_some_iff.mp h
    obtain ⟨k, hk, h⟩ := Option.bind_eq_some_iff.mp h
    obtain ⟨l, hl, h⟩ := Option.bind_eq_some_iff.mp h
    obtain rfl : ((i * 16 + j) * 16 + k) * 16 + l = n := Option.some.inj h
    have hn : ((i * 16 + j) * 16 + k) * 16 + l = i * 0x1000 + j * 0x100 + k * 0x10 + l := by omega
    rw [hn]
    exact .digits (hexDigit_iff.mpr hi) (hexDigit_iff.mpr hj) (hexDigit_iff.mpr hk)
      (hexDigit_iff.mpr hl)

theorem shortEscape?_eq_some_iff {e c : CodePoint} :
    shortEscape? e = some c ↔ (e, c) ∈ shortEscapes := by
  constructor
  · intro h
    rw [shortEscape?] at h
    split at h
    · rename_i he
      simp only [Bool.or_eq_true, decide_eq_true_eq] at he
      cases h
      rcases he with (rfl | rfl) | rfl <;> decide
    repeat' split at h
    all_goals cases h
    all_goals
      subst e
      decide
  · intro h
    simp only [shortEscapes, List.mem_cons, List.not_mem_nil, or_false, Prod.mk.injEq] at h
    rcases h with ⟨rfl, rfl⟩ | ⟨rfl, rfl⟩ | ⟨rfl, rfl⟩ | ⟨rfl, rfl⟩ | ⟨rfl, rfl⟩ | ⟨rfl, rfl⟩ |
      ⟨rfl, rfl⟩ | ⟨rfl, rfl⟩ <;> rfl

/-- The pieces that stand between the quotes of a string. -/
inductive Spells : Text → List Piece → Prop
  | nil : Spells [] []
  | plain {c : CodePoint} {u : Text} {ps : List Piece} :
      c ≠ CodePoint.ofChar '"' → c ≠ CodePoint.ofChar '\\' → 0x20 ≤ c.val → Spells u ps →
      Spells (c :: u) (⟨c, false⟩ :: ps)
  | short {e c : CodePoint} {u : Text} {ps : List Piece} : (e, c) ∈ shortEscapes → Spells u ps →
      Spells (CodePoint.ofChar '\\' :: e :: u) (⟨c, false⟩ :: ps)
  | unicode {p u : Text} {c : CodePoint} {ps : List Piece} : UnicodeEscape p c → Spells u ps →
      Spells (p ++ u) (⟨c, true⟩ :: ps)

private theorem pieces_of_spells {u : Text} {ps : List Piece} (h : Spells u ps)
    (start rest : Text) :
    pieces start (u ++ CodePoint.ofChar '"' :: rest) = .ok (ps, rest) := by
  induction h with
  | nil => exact pieces_quote start rest
  | plain hquote hslash hc _ ih =>
    rw [List.cons_append, pieces_plain hquote hslash hc, ih]
    rfl
  | short he _ ih =>
    rw [List.cons_append, List.cons_append, pieces_short (shortEscape?_eq_some_iff.mpr he), ih]
    rfl
  | @unicode p u x ps hp _ ih =>
    obtain ⟨a, b, c, d, n, rfl, hn, rfl⟩ := unicodeEscape_iff.mp hp
    obtain ⟨next, t, hnext⟩ : ∃ next t, u ++ CodePoint.ofChar '"' :: rest = next :: t :=
      List.exists_cons_of_ne_nil (by simp)
    have hslash : CodePoint.ofChar '\\' ≠ CodePoint.ofChar '"' := by decide
    rw [hnext] at ih
    rw [List.append_assoc, hnext, pieces.eq_def]
    simp only [List.cons_append, List.nil_append, if_neg hslash, if_true, hn, ih]
    rfl

private theorem spells_of_pieces {start t rest : Text} {ps : List Piece}
    (h : pieces start t = .ok (ps, rest)) :
    ∃ u, t = u ++ CodePoint.ofChar '"' :: rest ∧ Spells u ps := by
  fun_induction pieces start t generalizing ps rest with
  | case1 => cases h
  | case2 cs =>
    cases h
    exact ⟨[], rfl, .nil⟩
  | case3 => cases h
  | case4 => cases h
  | case5 a b c d next more n hn _ ih =>
    obtain ⟨⟨ps, _⟩, hps, h⟩ := bind_eq_ok.mp h
    cases h
    obtain ⟨u, hu, hspells⟩ := ih hps
    rw [hu]
    exact ⟨_, rfl, .unicode (unicodeEscape_iff.mpr ⟨a, b, c, d, n, rfl, hn, rfl⟩) hspells⟩
  | case6 => cases h
  | case7 => cases h
  | case8 e es _ c hc _ ih =>
    obtain ⟨⟨ps, _⟩, hps, h⟩ := bind_eq_ok.mp h
    cases h
    obtain ⟨u, rfl, hspells⟩ := ih hps
    exact ⟨_, rfl, .short (shortEscape?_eq_some_iff.mp hc) hspells⟩
  | case9 => cases h
  | case10 c cs hquote hslash hc ih =>
    obtain ⟨⟨ps, _⟩, hps, h⟩ := bind_eq_ok.mp h
    cases h
    obtain ⟨u, rfl, hspells⟩ := ih hps
    exact ⟨_, rfl, .plain hquote hslash (Nat.not_lt.mp hc) hspells⟩

/-- What begins with an escape of four digits has it as its first piece. -/
theorem Spells.head?_of_escape {u p : Text} {ps : List Piece} {c : CodePoint} (h : Spells u ps)
    (hp : UnicodeEscape p c) (hbegins : p <+: u) : ps.head? = some ⟨c, true⟩ := by
  obtain ⟨i, j, k, l, n, rfl, hn, rfl⟩ := unicodeEscape_iff.mp hp
  obtain ⟨t, ht⟩ := hbegins
  cases h with
  | nil => cases ht
  | plain _ hslash =>
    cases ht
    exact absurd rfl hslash
  | short he =>
    cases ht
    cases shortEscape?_eq_some_iff.mpr he
  | unicode hq =>
    obtain ⟨i', j', k', l', n', rfl, hn', rfl⟩ := unicodeEscape_iff.mp hq
    cases ht
    rw [hn] at hn'
    cases hn'
    rfl

private theorem Spells.exists_of_head? {u : Text} {ps : List Piece} {c : CodePoint}
    (h : Spells u ps) (hhead : ps.head? = some ⟨c, true⟩) : ∃ p, UnicodeEscape p c ∧ p <+: u := by
  cases h with
  | nil => cases hhead
  | plain => cases hhead
  | short => cases hhead
  | unicode hp =>
    cases hhead
    exact ⟨_, hp, List.prefix_append _ _⟩

private theorem joinPieces_alone {p : Piece} {ps : List Piece}
    (h : p.escaped = true → p.code.isHighSurrogate = true →
      ∀ c, ps.head? = some ⟨c, true⟩ → ¬c.isLowSurrogate = true) :
    joinPieces (p :: ps) = p.code :: joinPieces ps := by
  cases ps with
  | nil => rfl
  | cons q rest =>
    rw [joinPieces, if_neg]
    intro hall
    simp only [Bool.and_eq_true] at hall
    obtain ⟨⟨⟨hp, hhigh⟩, hq⟩, hlow⟩ := hall
    refine h hp hhigh q.code ?_ hlow
    rw [← hq]
    rfl

private theorem spells_of_quotes {u s : Text} (h : Quotes u s) :
    ∃ ps, Spells u ps ∧ joinPieces ps = s := by
  induction h with
  | nil => exact ⟨[], .nil, rfl⟩
  | plain hquote hslash hc _ ih =>
    obtain ⟨ps, hps, rfl⟩ := ih
    exact ⟨_, .plain hquote hslash hc hps, joinPieces_alone nofun⟩
  | short he _ ih =>
    obtain ⟨ps, hps, rfl⟩ := ih
    exact ⟨_, .short he hps, joinPieces_alone nofun⟩
  | pair hp hhigh hq hlow _ ih =>
    obtain ⟨ps, hps, rfl⟩ := ih
    exact ⟨_, .unicode hp (.unicode hq hps), joinPieces_pair hhigh hlow ps⟩
  | unicode hp halone _ ih =>
    obtain ⟨ps, hps, rfl⟩ := ih
    refine ⟨_, .unicode hp hps, joinPieces_alone fun _ hhigh low hhead hlow => ?_⟩
    obtain ⟨q, hq, hbegins⟩ := hps.exists_of_head? hhead
    exact halone hhigh q low hq hlow hbegins

private theorem quotes_of_spells {u : Text} {ps : List Piece} (h : Spells u ps) :
    Quotes u (joinPieces ps) := by
  fun_induction joinPieces ps generalizing u with
  | case1 =>
    cases h
    exact .nil
  | case2 p =>
    cases h with
    | plain hquote hslash hc hps =>
      cases hps
      exact .plain hquote hslash hc .nil
    | short he hps =>
      cases hps
      exact .short he .nil
    | unicode hp hps =>
      cases hps
      refine .unicode hp (fun _ q low hq _ hbegins => ?_) .nil
      rw [List.prefix_nil.mp hbegins] at hq
      cases hq
  | case3 p q rest hpair ih =>
    simp only [Bool.and_eq_true] at hpair
    obtain ⟨⟨⟨hp, hhigh⟩, hq⟩, hlow⟩ := hpair
    cases h with
    | plain => cases hp
    | short => cases hp
    | unicode hp' hps =>
      cases hps with
      | plain => cases hq
      | short => cases hq
      | unicode hq' hps' => exact .pair hp' hhigh hq' hlow (ih hps')
  | case4 p q rest hpair ih =>
    cases h with
    | plain hquote hslash hc hps => exact .plain hquote hslash hc (ih hps)
    | short he hps => exact .short he (ih hps)
    | unicode hp hps =>
      refine .unicode hp (fun hhigh q' low hq' hlow hbegins => hpair ?_) (ih hps)
      cases hps.head?_of_escape hq' hbegins
      simp [hhigh, hlow]

theorem string_eq_ok_iff {t s rest : Text} :
    string t = .ok (s, rest) ↔ ∃ u, t = u ++ CodePoint.ofChar '"' :: rest ∧ Quotes u s := by
  constructor
  · intro h
    obtain ⟨⟨ps, _⟩, hps, h⟩ := bind_eq_ok.mp h
    cases h
    obtain ⟨u, hu, hspells⟩ := spells_of_pieces hps
    exact ⟨u, hu, quotes_of_spells hspells⟩
  · rintro ⟨u, rfl, h⟩
    obtain ⟨ps, hps, rfl⟩ := spells_of_quotes h
    rw [string, pieces_of_spells hps, ok_bind]
    rfl

/-! ## Numbers -/

/-- What may stand behind a value: nothing, space, or what separates or closes. -/
def Delimits (rest : Text) : Prop := ∀ c ∈ rest.head?, c ∈ Text.ofString " \t\n\r,]\x7d"

private theorem Delimits.noDigit {rest : Text} (h : Delimits rest) : NoDigit rest := by
  have hdigit : ∀ c ∈ Text.ofString " \t\n\r,]\x7d", c.isDigit = false := by decide
  exact fun c hc => hdigit c (h c hc)

private theorem Delimits.head?_ne {rest : Text} (h : Delimits rest) {c : CodePoint}
    (hc : c ∉ Text.ofString " \t\n\r,]\x7d") : rest.head? ≠ some c :=
  fun heq => hc (h c heq)

private theorem eq_of_digits {t ds rest : Text} (h : digits t = (ds, rest)) :
    t = ds ++ rest ∧ (∀ c ∈ ds, c.isDigit = true) ∧ NoDigit rest := by
  cases h
  refine ⟨List.takeWhile_append_dropWhile.symm, fun c hc => List.mem_takeWhile_imp hc, ?_⟩
  intro c hc
  have hhead := List.head?_dropWhile_not (fun c : CodePoint => c.isDigit) t
  rw [Option.mem_def.mp hc] at hhead
  exact eq_false_of_ne_true (by simpa using hhead)

theorem eq_of_whole? {t ds rest : Text} (h : whole? t = some (ds, rest)) :
    t = ds ++ rest ∧ IsWhole ds ∧ (1 < ds.length → NoDigit rest) := by
  cases t with
  | nil => cases h
  | cons c cs =>
    rw [whole?] at h
    split at h
    · rename_i hc
      cases h
      exact ⟨rfl, .inl (by rw [hc]), fun hlen => absurd hlen (Nat.lt_irrefl 1)⟩
    · split at h
      · rename_i hzero hdigit
        obtain ⟨heq, hds, hrest⟩ := eq_of_digits (Option.some.inj h)
        refine ⟨heq, .inr ?_, fun _ => hrest⟩
        cases ds with
        | nil =>
          rw [hrest c (by rw [← List.nil_append rest, ← heq]; rfl)] at hdigit
          cases hdigit
        | cons d ds =>
          obtain ⟨rfl, -⟩ := List.cons.inj heq
          exact ⟨c, ds, rfl, hzero, hds⟩
      · cases h

private theorem eq_of_fraction? {t ds rest : Text} (h : fraction? t = some (ds, rest)) :
    t = CodePoint.ofChar '.' :: (ds ++ rest) ∧ ds ≠ [] ∧ ∀ c ∈ ds, c.isDigit = true := by
  rw [fraction?.eq_def] at h
  split at h
  · rename_i c d more
    split at h
    · rename_i hpoint
      simp only [Bool.and_eq_true, decide_eq_true_eq] at hpoint
      obtain ⟨heq, hds, hrest⟩ := eq_of_digits (Option.some.inj h)
      refine ⟨by rw [← heq, hpoint.1], ?_, hds⟩
      rintro rfl
      have hdigit := hrest d (by rw [← List.nil_append rest, ← heq]; rfl)
      rw [hpoint.2] at hdigit
      cases hdigit
    · cases h
  · cases h

private theorem exponentForm_of_exponent? {t rest : Text} {x : Bool × Text}
    (h : exponent? t = some (x, rest)) :
    (∃ e, ExponentForm (some x) e ∧ t = e ++ rest) ∧ x.2 ≠ [] ∧ ∀ c ∈ x.2, c.isDigit = true := by
  cases t with
  | nil => cases h
  | cons mark cs =>
    simp only [exponent?] at h
    split at h
    · rename_i hmark
      simp only [Bool.or_eq_true, decide_eq_true_eq] at hmark
      split at h
      · cases h
      · rename_i ds rest' hne hdigits
        cases h
        have hform {negative : Bool} {cs' : Text} (signs : Text) (hcs : cs = signs ++ cs')
            (hsigns : signs = sign negative ∨ negative = false ∧ signs = [CodePoint.ofChar '+'])
            (hdigits : digits cs' = (ds, rest)) :
            (∃ e, ExponentForm (some (negative, ds)) e ∧ mark :: cs = e ++ rest) ∧ ds ≠ [] ∧
              ∀ c ∈ ds, c.isDigit = true := by
          obtain ⟨rfl, hds, -⟩ := eq_of_digits hdigits
          exact ⟨⟨_, .some hmark hsigns, by simp [hcs]⟩, hne, hds⟩
        cases cs with
        | nil => exact hform [] rfl (.inl rfl) hdigits
        | cons d ds' =>
          dsimp only at hdigits ⊢
          by_cases hminus : d = CodePoint.ofChar '-'
          · rw [if_pos hminus] at hdigits ⊢
            exact hform [d] rfl (.inl (by rw [hminus]; rfl)) hdigits
          · by_cases hplus : d = CodePoint.ofChar '+'
            · rw [if_neg hminus, if_pos hplus] at hdigits ⊢
              exact hform [d] rfl (.inr ⟨rfl, by rw [hplus]⟩) hdigits
            · rw [if_neg hminus, if_neg hplus] at hdigits ⊢
              exact hform [] rfl (.inl rfl) hdigits
    · cases h

private theorem exponent?_of_exponentForm {x : Bool × Text} {e rest : Text}
    (h : ExponentForm (some x) e) (hne : x.2 ≠ []) (hds : ∀ c ∈ x.2, c.isDigit = true)
    (hrest : NoDigit rest) : exponent? (e ++ rest) = some (x, rest) := by
  cases h with
  | @some mark negative ds signs hmark hsign =>
    obtain ⟨d, ds, rfl⟩ := List.exists_cons_of_ne_nil hne
    have happend := digits_append hds hrest
    have hdigit : d.isDigit = true := hds d List.mem_cons_self
    have hminus : d ≠ CodePoint.ofChar '-' := fun hd => by rw [hd] at hdigit; cases hdigit
    have hplus : d ≠ CodePoint.ofChar '+' := fun hd => by rw [hd] at hdigit; cases hdigit
    have hpm : CodePoint.ofChar '+' ≠ CodePoint.ofChar '-' := by decide
    have hmark' : (mark = CodePoint.ofChar 'e' || mark = CodePoint.ofChar 'E') = true := by
      simpa using hmark
    rw [List.cons_append] at happend
    rcases hsign with rfl | ⟨rfl, rfl⟩
    · cases negative with
      | false => simp [exponent?, sign, hmark', hminus, hplus, happend]
      | true => simp [exponent?, sign, hmark', happend]
    · simp [exponent?, hmark', hpm, happend]

private theorem ExponentForm.head?_append {x : Option (Bool × Text)} {e rest : Text}
    (h : ExponentForm x e) (hrest : Delimits rest) :
    ∀ c ∈ (e ++ rest).head?, c.isDigit = false ∧ c ≠ CodePoint.ofChar '.' := by
  intro c hc
  cases h with
  | none => exact ⟨hrest.noDigit c hc, fun hpoint => hrest.head?_ne (by decide) (hpoint ▸ hc)⟩
  | some hmark =>
    cases hc
    rcases hmark with rfl | rfl <;> decide

theorem lexeme?_of_writes {l : Lexeme} {u rest : Text} (h : l.Writes u) (hrest : Delimits rest) :
    lexeme? (u ++ rest) = some (l, rest) := by
  obtain ⟨hl, e, he, rfl⟩ := h
  have hbehind := he.head?_append hrest
  have hwhole : NoDigit (l.fractionText ++ (e ++ rest)) := by
    intro c hc
    rw [Lexeme.fractionText] at hc
    split at hc
    · exact (hbehind c hc).1
    · cases hc
      decide
  have hfraction : fraction? (l.fractionText ++ (e ++ rest)) =
      l.fraction.map (·, e ++ rest) := by
    rw [Lexeme.fractionText]
    split
    · rename_i hnone
      rw [hnone]
      exact fraction?_none fun hc => (hbehind _ hc).2 rfl
    · rename_i ds hsome
      obtain ⟨hne, hds⟩ := hl.fraction _ hsome
      rw [hsome]
      exact fraction?_append hne hds fun c hc => (hbehind c hc).1
  simp only [List.append_assoc]
  apply lexeme?_of_parts rfl (whole?_append hl.whole hwhole) hfraction
  · intro hnone
    rw [Lexeme.fractionText, hnone]
    rfl
  · cases hexponent : l.exponent with
    | none =>
      rw [hexponent] at he
      cases he
      exact exponent?_none (hrest.head?_ne (by decide)) (hrest.head?_ne (by decide))
    | some x =>
      obtain ⟨hne, hds⟩ := hl.exponent x hexponent
      rw [hexponent] at he
      exact exponent?_of_exponentForm he hne hds hrest.noDigit
  · intro hnone
    rw [hnone] at he
    cases he
    rfl

theorem writes_of_lexeme? {t rest : Text} {l : Lexeme} (h : lexeme? t = some (l, rest)) :
    ∃ u, t = u ++ rest ∧ l.Writes u := by
  obtain ⟨body, afterWhole, afterFraction, hsign, hwhole, hfraction, hfraction', hexponent,
    hexponent'⟩ := lexeme?_parts h
  obtain ⟨hbody, hisWhole, -⟩ := eq_of_whole? hwhole
  have hsign' : t = sign l.negative ++ body := by
    rcases hsign with ⟨hneg, rfl⟩ | ⟨hneg, rfl⟩ <;> rw [hneg] <;> rfl
  have hf : afterWhole = l.fractionText ++ afterFraction ∧
      ∀ ds ∈ l.fraction, ds ≠ [] ∧ ∀ c ∈ ds, c.isDigit = true := by
    rw [Lexeme.fractionText]
    cases hl : l.fraction with
    | none => exact ⟨(hfraction' hl).symm, fun _ hds => absurd hds (by simp)⟩
    | some ds =>
      rw [hl] at hfraction
      obtain ⟨heq, hds⟩ := eq_of_fraction? hfraction
      refine ⟨heq, ?_⟩
      rintro _ ⟨⟩
      exact hds
  have he : ∃ e, ExponentForm l.exponent e ∧ afterFraction = e ++ rest ∧
      ∀ x ∈ l.exponent, x.2 ≠ [] ∧ ∀ c ∈ x.2, c.isDigit = true := by
    cases hl : l.exponent with
    | none => exact ⟨[], .none, (hexponent' hl).symm, fun _ hx => absurd hx (by simp)⟩
    | some x =>
      rw [hl] at hexponent
      obtain ⟨⟨e, hform, heq⟩, hx⟩ := exponentForm_of_exponent? hexponent
      refine ⟨e, hform, heq, ?_⟩
      rintro _ ⟨⟩
      exact hx
  obtain ⟨e, hform, hafter, hexponents⟩ := he
  refine ⟨_, ?_, ⟨hisWhole, hf.2, hexponents⟩, e, hform, rfl⟩
  rw [hsign', hbody, hf.1, hafter]
  simp only [List.append_assoc]

end Json

end RubyLanguageServer
