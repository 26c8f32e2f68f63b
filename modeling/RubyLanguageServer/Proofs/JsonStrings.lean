import Mathlib.Data.List.Chain
import RubyLanguageServer.Json.Printer
import RubyLanguageServer.Proofs.JsonReader
/-!
# Strings, printed and read again

A printed string is read as the same code points, except that a high surrogate directly before a low
one becomes one code point with it: each is printed as an escape, and the reader joins escapes that
make a pair. A string that was itself read from a text without surrogates has no such neighbours,
since they were joined then, so it comes back as it was.
-/
namespace RubyLanguageServer

namespace CodePoint

theorem val_ofNat {n : Nat} (h : n < 0x110000) : (ofNat n).val = n := by
  rw [ofNat, dif_pos h]

theorem ext {c d : CodePoint} (h : c.val = d.val) : c = d := by
  cases c
  cases d
  cases h
  rfl

theorem ofNat_val (c : CodePoint) : ofNat c.val = c := ext (val_ofNat c.isLt)

theorem hexValue?_hexDigit : ∀ n < 16, (hexDigit n).hexValue? = some n := by decide

theorem hexValue?_hexDigitUpper : ∀ n < 16, (hexDigitUpper n).hexValue? = some n := by decide

theorem isHighSurrogate_iff {c : CodePoint} :
    c.isHighSurrogate = true ↔ 0xd800 ≤ c.val ∧ c.val ≤ 0xdbff := by
  simp [isHighSurrogate]

theorem isLowSurrogate_iff {c : CodePoint} :
    c.isLowSurrogate = true ↔ 0xdc00 ≤ c.val ∧ c.val ≤ 0xdfff := by
  simp [isLowSurrogate]

theorem isSurrogate_iff {c : CodePoint} :
    c.isSurrogate = true ↔ 0xd800 ≤ c.val ∧ c.val ≤ 0xdfff := by
  simp [isSurrogate]

/-- The first half of the surrogate pair of a code point beyond the basic plane. -/
def highHalf (c : CodePoint) : CodePoint := .ofNat (0xd800 + (c.val - 0x10000) / 0x400)

def lowHalf (c : CodePoint) : CodePoint := .ofNat (0xdc00 + (c.val - 0x10000) % 0x400)

private theorem val_highHalf (c : CodePoint) :
    c.highHalf.val = 0xd800 + (c.val - 0x10000) / 0x400 := by
  have := c.isLt
  exact val_ofNat (by omega)

private theorem val_lowHalf (c : CodePoint) : c.lowHalf.val = 0xdc00 + (c.val - 0x10000) % 0x400 :=
  val_ofNat (by omega)

private theorem isHighSurrogate_highHalf (c : CodePoint) : c.highHalf.isHighSurrogate = true := by
  have := c.isLt
  rw [isHighSurrogate_iff, val_highHalf]
  omega

private theorem isLowSurrogate_lowHalf (c : CodePoint) : c.lowHalf.isLowSurrogate = true := by
  rw [isLowSurrogate_iff, val_lowHalf]
  omega

private theorem not_isLowSurrogate_of_high {c : CodePoint} (h : c.isHighSurrogate = true) :
    ¬ c.isLowSurrogate = true := by
  rw [isHighSurrogate_iff] at h
  rw [isLowSurrogate_iff]
  omega

end CodePoint

namespace Text

def Scalar (t : Text) : Prop := ∀ c ∈ t, c.isSurrogate = false

theorem Scalar.of_suffix {t rest : Text} (h : t.Scalar) (hrest : rest <:+ t) : rest.Scalar :=
  fun c hc => h c (hrest.subset hc)

instance (t : Text) : Decidable t.Scalar := inferInstanceAs (Decidable (∀ c ∈ t, _))

/-- A text of visible ASCII characters and spaces. -/
def Visible (t : Text) : Prop := ∀ c ∈ t, 0x20 ≤ c.val ∧ c.val ≤ 0x7e

instance (t : Text) : Decidable t.Visible := inferInstanceAs (Decidable (∀ c ∈ t, _))

theorem Visible.append {t u : Text} (ht : t.Visible) (hu : u.Visible) : (t ++ u).Visible :=
  List.forall_mem_append.mpr ⟨ht, hu⟩

/-- No high surrogate stands directly before a low one. -/
def Joined (t : Text) : Prop :=
  t.IsChain fun c d => ¬(c.isHighSurrogate = true ∧ d.isLowSurrogate = true)

theorem Scalar.joined {t : Text} (h : t.Scalar) : t.Joined := by
  induction t with
  | nil => exact .nil
  | cons c cs ih =>
    rw [Scalar, List.forall_mem_cons] at h
    refine List.isChain_cons.mpr ⟨fun d _ hpair => ?_, ih h.2⟩
    have hrange := CodePoint.isHighSurrogate_iff.mp hpair.1
    have hsurrogate : c.isSurrogate = true := CodePoint.isSurrogate_iff.mpr (by omega)
    rw [h.1] at hsurrogate
    cases hsurrogate

/-- The text with each high surrogate joined to a low one directly behind it. -/
def joinPairs : Text → Text
  | [] => []
  | [c] => [c]
  | c :: d :: rest =>
    if c.isHighSurrogate && d.isLowSurrogate then Json.joinSurrogates c d :: joinPairs rest
    else c :: joinPairs (d :: rest)

theorem Joined.joinPairs_eq {t : Text} (h : t.Joined) : t.joinPairs = t := by
  fun_induction joinPairs t with
  | case1 => rfl
  | case2 => rfl
  | case3 c d rest hpair =>
    rw [Bool.and_eq_true] at hpair
    exact absurd hpair (List.isChain_cons_cons.mp h).1
  | case4 c d rest hpair ih => rw [ih (List.isChain_cons_cons.mp h).2]

end Text

namespace Json

private theorem joinSurrogates_halves {c : CodePoint} (h : 0x10000 ≤ c.val) :
    joinSurrogates c.highHalf c.lowHalf = c := by
  have hlt := c.isLt
  rw [joinSurrogates, CodePoint.val_highHalf, CodePoint.val_lowHalf]
  apply CodePoint.ext
  rw [CodePoint.val_ofNat (by omega)]
  omega

private theorem le_val_joinSurrogates {high low : CodePoint} (hh : high.isHighSurrogate = true)
    (hl : low.isLowSurrogate = true) : 0x10000 ≤ (joinSurrogates high low).val := by
  rw [CodePoint.isHighSurrogate_iff] at hh
  rw [CodePoint.isLowSurrogate_iff] at hl
  rw [joinSurrogates, CodePoint.val_ofNat (by omega)]
  omega

/-- Whether a code point is printed as itself or by one letter behind a backslash. -/
def hasShortForm (c : CodePoint) : Bool :=
  (0x20 ≤ c.val && c.val ≤ 0x7e) || (8 ≤ c.val && c.val ≤ 13 && c.val != 11)

inductive Form (c : CodePoint) : Text → Prop
  | short {e : CodePoint} : shortEscape? e = some c → hasShortForm c = true → 0x20 ≤ e.val →
      e.val ≤ 0x7e → Form c [CodePoint.ofChar '\\', e]
  | plain : c ≠ '"' → c ≠ '\\' → 0x20 ≤ c.val → c.val ≤ 0x7e → Form c [c]
  | long : c.val < 0x10000 → hasShortForm c = false → Form c (unicodeEscape c.val)
  | pair : 0x10000 ≤ c.val →
      Form c (unicodeEscape c.highHalf.val ++ unicodeEscape c.lowHalf.val)

private theorem form_escape (c : CodePoint) : Form c (escape c) := by
  rw [escape]
  split
  · subst c
    exact .short rfl rfl (by decide) (by decide)
  split
  · subst c
    exact .short rfl rfl (by decide) (by decide)
  split
  · subst c
    exact .short rfl rfl (by decide) (by decide)
  split
  · subst c
    exact .short rfl rfl (by decide) (by decide)
  split
  · subst c
    exact .short rfl rfl (by decide) (by decide)
  split
  · rename_i hc
    obtain rfl : c = ⟨0xc, by decide⟩ := CodePoint.ext hc
    exact .short rfl rfl (by decide) (by decide)
  split
  · rename_i hc
    obtain rfl : c = ⟨0x8, by decide⟩ := CodePoint.ext hc
    exact .short rfl rfl (by decide) (by decide)
  split
  · rename_i hquote hslash _ _ _ _ _ hc
    rw [Bool.and_eq_true, decide_eq_true_eq, decide_eq_true_eq] at hc
    exact .plain hquote hslash hc.1 hc.2
  -- What is left is written by four digits, or by four for each half of its pair.
  rename_i hnewline hreturn htab hfeed hback hrange
  have hlong : hasShortForm c = false := by
    have hne {d : CodePoint} (hd : c ≠ d) : c.val ≠ d.val := fun h => hd (CodePoint.ext h)
    have h₁ : c.val ≠ 10 := hne hnewline
    have h₂ : c.val ≠ 13 := hne hreturn
    have h₃ : c.val ≠ 9 := hne htab
    simp only [Bool.and_eq_true, decide_eq_true_eq] at hrange
    simp only [hasShortForm, Bool.or_eq_false_iff, Bool.and_eq_false_iff, decide_eq_false_iff_not,
      bne_eq_false_iff_eq]
    omega
  split
  · exact .long ‹_› hlong
  · rw [← CodePoint.val_highHalf, ← CodePoint.val_lowHalf]
    exact .pair (Nat.not_lt.mp ‹_›)

private theorem unicodeEscape_eq (n : Nat) : unicodeEscape n =
    [CodePoint.ofChar '\\', CodePoint.ofChar 'u', .hexDigit (n / 16 / 16 / 16 % 16),
      .hexDigit (n / 16 / 16 % 16), .hexDigit (n / 16 % 16), .hexDigit (n % 16)] := rfl

private theorem visible_unicodeEscape (n : Nat) : (unicodeEscape n).Visible := by
  have hdigit : ∀ k < 16,
      0x20 ≤ (CodePoint.hexDigit k).val ∧ (CodePoint.hexDigit k).val ≤ 0x7e := by decide
  have hmod (k : Nat) : k % 16 < 16 := Nat.mod_lt k (by decide)
  have hescape : Text.Visible [CodePoint.ofChar '\\', CodePoint.ofChar 'u'] := by decide
  rw [unicodeEscape_eq]
  apply Text.Visible.append hescape
  simp only [Text.Visible, List.forall_mem_cons]
  exact ⟨hdigit _ (hmod _), hdigit _ (hmod _), hdigit _ (hmod _), hdigit _ (hmod _), nofun⟩

private theorem visible_escape (c : CodePoint) : (escape c).Visible := by
  have hform := form_escape c
  generalize escape c = form at hform
  cases hform with
  | short _ _ hge hle =>
    have hslash : Text.Visible [CodePoint.ofChar '\\'] := by decide
    exact hslash.append (List.forall_mem_singleton.mpr ⟨hge, hle⟩)
  | plain _ _ hge hle => exact List.forall_mem_singleton.mpr ⟨hge, hle⟩
  | long => exact visible_unicodeEscape _
  | pair => exact (visible_unicodeEscape _).append (visible_unicodeEscape _)

theorem visible_printString (t : Text) : (printString t).Visible := by
  have hquote : Text.Visible "\"" := by decide
  have hmap : Text.Visible (t.flatMap escape) := by
    intro c hc
    obtain ⟨d, _, hd⟩ := List.mem_flatMap.mp hc
    exact visible_escape d c hd
  exact (hquote.append hmap).append hquote

def prepend (ps : List Piece) (found : List Piece × Text) : List Piece × Text :=
  (ps ++ found.1, found.2)

private theorem map_prepend (ps qs : List Piece) (found : Except Stop (List Piece × Text)) :
    (found.map (prepend qs)).map (prepend ps) = found.map (prepend (ps ++ qs)) := by
  cases found with
  | error e => rfl
  | ok found => simp [Except.map, prepend]

theorem pieces_quote (start t : Text) : pieces start (CodePoint.ofChar '"' :: t) = .ok ([], t) := by
  rw [pieces.eq_def]
  exact if_pos rfl

theorem pieces_plain {c : CodePoint} (hquote : c ≠ '"') (hslash : c ≠ '\\') (hc : 0x20 ≤ c.val)
    (start t : Text) :
    pieces start (c :: t) = (pieces start t).map (prepend [⟨c, false⟩]) := by
  rw [pieces.eq_def]
  simp only [if_neg hquote, if_neg hslash, if_neg (Nat.not_lt.mpr hc)]
  rfl

theorem pieces_short {e c : CodePoint} (h : shortEscape? e = some c) (start t : Text) :
    pieces start (CodePoint.ofChar '\\' :: e :: t) =
      (pieces start t).map (prepend [⟨c, false⟩]) := by
  have hslash : CodePoint.ofChar '\\' ≠ CodePoint.ofChar '"' := by decide
  have hu : e ≠ 'u' := by
    rintro rfl
    cases h
  rw [pieces.eq_def]
  simp only [if_neg hslash, if_true, if_neg hu, h]
  rfl

theorem pieces_unicode {n : Nat} (hn : n < 0x10000) (start : Text) {t : Text} (ht : t ≠ []) :
    pieces start (unicodeEscape n ++ t) =
      (pieces start t).map (prepend [⟨.ofNat n, true⟩]) := by
  obtain ⟨next, t, rfl⟩ := List.exists_cons_of_ne_nil ht
  have hvalue : hexValue? (.hexDigit (n / 16 / 16 / 16 % 16)) (.hexDigit (n / 16 / 16 % 16))
      (.hexDigit (n / 16 % 16)) (.hexDigit (n % 16)) = some n := by
    simp only [hexValue?, CodePoint.hexValue?_hexDigit _ (Nat.mod_lt _ (by decide : 16 > 0))]
    show some _ = some n
    congr 1
    omega
  have hslash : CodePoint.ofChar '\\' ≠ CodePoint.ofChar '"' := by decide
  rw [unicodeEscape_eq, pieces.eq_def]
  simp only [List.cons_append, List.nil_append, if_neg hslash, if_true, hvalue]
  rfl

/-- The pieces that a printed code point is read as. -/
def spelling (c : CodePoint) : List Piece :=
  if c.val < 0x10000 then [⟨c, !hasShortForm c⟩] else [⟨c.highHalf, true⟩, ⟨c.lowHalf, true⟩]

private theorem pieces_escape (c : CodePoint) (start : Text) {t : Text} (ht : t ≠ []) :
    pieces start (escape c ++ t) = (pieces start t).map (prepend (spelling c)) := by
  have hform := form_escape c
  have hlt := c.isLt
  rw [spelling]
  generalize escape c = form at hform
  cases hform with
  | short he hshort =>
    have hlow : c.val < 0x10000 := by
      simp only [hasShortForm, Bool.or_eq_true, Bool.and_eq_true, decide_eq_true_eq] at hshort
      omega
    rw [if_pos hlow, hshort]
    exact pieces_short he start t
  | plain hquote hslash hge hle =>
    have hshort : hasShortForm c = true := by simp [hasShortForm, hge, hle]
    rw [if_pos (by omega), hshort]
    exact pieces_plain hquote hslash hge start t
  | long hlow hlong =>
    rw [if_pos hlow, hlong, pieces_unicode hlow start ht, CodePoint.ofNat_val]
    rfl
  | pair hhigh =>
    have hlow : c.lowHalf.val < 0x10000 := by
      rw [CodePoint.val_lowHalf]
      omega
    have hhalf : c.highHalf.val < 0x10000 := by
      rw [CodePoint.val_highHalf]
      omega
    have hrest : unicodeEscape c.lowHalf.val ++ t ≠ [] := List.append_ne_nil_of_right_ne_nil _ ht
    rw [if_neg (Nat.not_lt.mpr hhigh), List.append_assoc, pieces_unicode hhalf start hrest,
      pieces_unicode hlow start ht, map_prepend, CodePoint.ofNat_val, CodePoint.ofNat_val]
    rfl

private theorem pieces_flatMap_escape (t start rest : Text) :
    pieces start (t.flatMap escape ++ CodePoint.ofChar '"' :: rest) =
      .ok (t.flatMap spelling, rest) := by
  induction t with
  | nil => exact pieces_quote start rest
  | cons c t ih =>
    have hne : t.flatMap escape ++ CodePoint.ofChar '"' :: rest ≠ [] := by simp
    rw [List.flatMap_cons, List.append_assoc, pieces_escape c start hne, ih]
    rfl

theorem joinPieces_pair {c d : CodePoint} (hc : c.isHighSurrogate = true)
    (hd : d.isLowSurrogate = true) (ps : List Piece) :
    joinPieces (⟨c, true⟩ :: ⟨d, true⟩ :: ps) = joinSurrogates c d :: joinPieces ps := by
  simp [joinPieces, hc, hd]

private theorem joinPieces_cons {p : Piece} {ps : List Piece}
    (h : ∀ q ∈ ps.head?, ¬(p.code.isHighSurrogate = true ∧ q.code.isLowSurrogate = true)) :
    joinPieces (p :: ps) = p.code :: joinPieces ps := by
  cases ps with
  | nil => rfl
  | cons q rest =>
    have hpair := h q rfl
    rw [joinPieces, if_neg]
    intro hall
    simp only [Bool.and_eq_true] at hall
    exact hpair ⟨hall.1.1.2, hall.2⟩

private theorem spelling_of_isSurrogate {c : CodePoint} (h : c.isSurrogate = true) :
    spelling c = [⟨c, true⟩] := by
  rw [CodePoint.isSurrogate_iff] at h
  have hlong : hasShortForm c = false := by
    simp only [hasShortForm, Bool.or_eq_false_iff, Bool.and_eq_false_iff, decide_eq_false_iff_not]
    omega
  rw [spelling, if_pos (by omega), hlong]
  rfl

private theorem head?_spelling (c : CodePoint) (ps : List Piece) :
    ∃ p, (spelling c ++ ps).head? = some p ∧ (p.code = c ∨ p.code.isHighSurrogate = true) := by
  rw [spelling]
  split
  · exact ⟨_, rfl, .inl rfl⟩
  · exact ⟨_, rfl, .inr c.isHighSurrogate_highHalf⟩

private theorem joinPieces_spelling_append {c : CodePoint} {ps : List Piece}
    (h : ∀ q ∈ ps.head?, ¬(c.isHighSurrogate = true ∧ q.code.isLowSurrogate = true)) :
    joinPieces (spelling c ++ ps) = c :: joinPieces ps := by
  rw [spelling]
  split
  · exact joinPieces_cons h
  · rename_i hc
    have hjoin := joinSurrogates_halves (Nat.not_lt.mp hc)
    rw [List.cons_append, List.singleton_append,
      joinPieces_pair c.isHighSurrogate_highHalf c.isLowSurrogate_lowHalf, hjoin]

private theorem joinPieces_flatMap_spelling (t : Text) :
    joinPieces (t.flatMap spelling) = t.joinPairs := by
  fun_induction Text.joinPairs t with
  | case1 => rfl
  | case2 c =>
    have hnone : ∀ q ∈ ([] : List Piece).head?,
        ¬(c.isHighSurrogate = true ∧ q.code.isLowSurrogate = true) := by simp
    rw [List.flatMap_singleton, ← List.append_nil (spelling c), joinPieces_spelling_append hnone]
    rfl
  | case3 c d rest hpair ih =>
    rw [Bool.and_eq_true] at hpair
    have hc := CodePoint.isHighSurrogate_iff.mp hpair.1
    have hd := CodePoint.isLowSurrogate_iff.mp hpair.2
    rw [List.flatMap_cons, List.flatMap_cons,
      spelling_of_isSurrogate (CodePoint.isSurrogate_iff.mpr (by omega)),
      spelling_of_isSurrogate (CodePoint.isSurrogate_iff.mpr (by omega)), ← ih]
    exact joinPieces_pair hpair.1 hpair.2 _
  | case4 c d rest hpair ih =>
    rw [List.flatMap_cons, joinPieces_spelling_append, ih]
    -- The next piece is `d` itself or the high half of its pair: it closes no pair with `c`.
    intro q hq
    obtain ⟨p, hp, hcode⟩ := head?_spelling d (rest.flatMap spelling)
    rw [List.flatMap_cons, hp] at hq
    cases hq
    rintro ⟨hc, hlow⟩
    rcases hcode with hcode | hhigh
    · rw [hcode] at hlow
      exact hpair (by rw [hc, hlow]; rfl)
    · exact CodePoint.not_isLowSurrogate_of_high hhigh hlow

theorem string_flatMap_escape (t rest : Text) :
    string (t.flatMap escape ++ CodePoint.ofChar '"' :: rest) = .ok (t.joinPairs, rest) := by
  rw [string, pieces_flatMap_escape, ok_bind, ← joinPieces_flatMap_spelling]
  rfl

private theorem head?_joinPieces (p : Piece) (ps : List Piece) :
    ∃ c, (joinPieces (p :: ps)).head? = some c ∧ (c = p.code ∨ 0x10000 ≤ c.val) := by
  cases ps with
  | nil => exact ⟨_, rfl, .inl rfl⟩
  | cons q rest =>
    rw [joinPieces]
    split
    · rename_i hpair
      simp only [Bool.and_eq_true] at hpair
      exact ⟨_, rfl, .inr (le_val_joinSurrogates hpair.1.1.2 hpair.2)⟩
    · exact ⟨_, rfl, .inl rfl⟩

/-- Where every surrogate is written by an escape, no two are left that make a pair. -/
theorem joined_joinPieces {ps : List Piece}
    (h : ∀ p ∈ ps, p.code.isSurrogate = true → p.escaped = true) : (joinPieces ps).Joined := by
  fun_induction joinPieces ps with
  | case1 => exact .nil
  | case2 p => exact .singleton p.code
  | case3 p q rest hpair ih =>
    simp only [Bool.and_eq_true] at hpair
    refine List.isChain_cons.mpr ⟨fun d _ => ?_, ih fun r hr => h r (by simp [hr])⟩
    have hlarge := le_val_joinSurrogates hpair.1.1.2 hpair.2
    rw [CodePoint.isHighSurrogate_iff]
    omega
  | case4 p q rest hpair ih =>
    refine List.isChain_cons.mpr ⟨fun d hd => ?_, ih fun r hr => h r (List.mem_cons_of_mem p hr)⟩
    obtain ⟨c, hc, hcode⟩ := head?_joinPieces q rest
    rw [hc] at hd
    cases hd
    rintro ⟨hhigh, hlow⟩
    have hrange := CodePoint.isLowSurrogate_iff.mp hlow
    obtain rfl : d = q.code := hcode.resolve_right (by omega)
    have hrange' := CodePoint.isHighSurrogate_iff.mp hhigh
    have hp := h p (by simp) (CodePoint.isSurrogate_iff.mpr (by omega))
    have hq := h q (by simp) (CodePoint.isSurrogate_iff.mpr (by omega))
    exact hpair (by simp [hp, hq, hhigh, hlow])

private theorem isSurrogate_shortEscape? {e c : CodePoint} (h : shortEscape? e = some c)
    (he : e.isSurrogate = false) : c.isSurrogate = false := by
  rw [shortEscape?] at h
  repeat' split at h
  all_goals cases h
  · exact he
  all_goals decide

private theorem escaped_of_pieces {start t rest : Text} {ps : List Piece}
    (h : pieces start t = .ok (ps, rest)) (ht : t.Scalar) :
    ∀ p ∈ ps, p.code.isSurrogate = true → p.escaped = true := by
  fun_induction pieces start t generalizing ps rest with
  | case1 => cases h
  | case2 cs =>
    cases h
    exact fun p hp => absurd hp List.not_mem_nil
  | case3 => cases h
  | case4 => cases h
  | case5 h₁ h₂ h₃ h₄ _ _ _ _ _ ih =>
    obtain ⟨⟨ps, _⟩, hps, h⟩ := bind_eq_ok.mp h
    cases h
    rw [List.forall_mem_cons]
    exact ⟨fun _ => rfl, ih hps (ht.of_suffix ⟨[_, _, h₁, h₂, h₃, h₄], rfl⟩)⟩
  | case6 => cases h
  | case7 => cases h
  | case8 e es _ c hc _ ih =>
    obtain ⟨⟨ps, _⟩, hps, h⟩ := bind_eq_ok.mp h
    cases h
    have hscalar := isSurrogate_shortEscape? hc (ht e (by simp))
    rw [List.forall_mem_cons]
    refine ⟨fun hsurrogate => ?_, ih hps (ht.of_suffix ⟨[_, _], rfl⟩)⟩
    rw [hscalar] at hsurrogate
    cases hsurrogate
  | case9 => cases h
  | case10 c cs _ _ _ ih =>
    obtain ⟨⟨ps, _⟩, hps, h⟩ := bind_eq_ok.mp h
    cases h
    rw [List.forall_mem_cons]
    refine ⟨fun hsurrogate => ?_, ih hps (ht.of_suffix (List.suffix_cons c cs))⟩
    rw [ht c List.mem_cons_self] at hsurrogate
    cases hsurrogate

/-- A string read from a text without surrogates has none that make a pair. -/
theorem joined_of_string {t s rest : Text} (h : string t = .ok (s, rest)) (ht : t.Scalar) :
    s.Joined := by
  obtain ⟨⟨ps, _⟩, hps, h⟩ := bind_eq_ok.mp h
  cases h
  exact joined_joinPieces (escaped_of_pieces hps ht)

end Json

end RubyLanguageServer
