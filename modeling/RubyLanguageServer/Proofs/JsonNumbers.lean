import Mathlib.Data.List.DropRight
import RubyLanguageServer.Proofs.JsonExcess
import RubyLanguageServer.Proofs.JsonStrings
import RubyLanguageServer.Proofs.Printing
/-!
# Numbers and words, printed and read again

A printed number is read to its end where a separator or nothing follows. An integer comes back as
it was. A floating point number is printed with a point or an exponent, so that it is read as a
floating point number again.
-/
namespace RubyLanguageServer

theorem Text.after?_append (word rest : Text) : (word ++ rest).after? word = some rest := by
  induction word with
  | nil => cases rest <;> rfl
  | cons c cs ih => simpa [after?] using ih

namespace Json

private theorem word?_append {word : Text} {v : Json} (h : (word, v) ∈ words) (rest : Text) :
    word? (word ++ rest) = some (v, rest) := by
  simp only [words, List.mem_cons, List.not_mem_nil, or_false, Prod.mk.injEq] at h
  rcases h with ⟨rfl, rfl⟩ | ⟨rfl, rfl⟩ | ⟨rfl, rfl⟩ | ⟨rfl, rfl⟩ | ⟨rfl, rfl⟩ | ⟨rfl, rfl⟩
  all_goals
    simp only [word?, words, List.findSome?_cons, Text.after?_append]
    rfl

theorem atom_of_word {word : Text} {v : Json} (h : (word, v) ∈ words) (rest : Text) :
    atom (word ++ rest) = .ok (v, rest) := by
  simp only [atom, word?_append h]

end Json

namespace Numeral

private theorem ofNat_of_lt {n : Nat} (h : n < 10) : ofNat n = [CodePoint.ofChar n.digitChar] := by
  rw [ofNat, Nat.toDigits_of_lt_base h]
  rfl

private theorem ofNat_of_le {n : Nat} (h : 10 ≤ n) :
    ofNat n = ofNat (n / 10) ++ [CodePoint.ofChar (n % 10).digitChar] := by
  rw [ofNat, Nat.toDigits_of_base_le (by decide) h, List.map_append]
  rfl

private theorem decimalValue?_digitChar :
    ∀ n < 10, (CodePoint.ofChar n.digitChar).decimalValue? = some n := by decide

private theorem isDigit_digitChar : ∀ n < 10, (CodePoint.ofChar n.digitChar).isDigit = true := by
    decide

theorem value_ofNat (n : Nat) : value (ofNat n) = n := by
  induction n using Nat.strong_induction_on with
  | _ n ih =>
    by_cases hn : n < 10
    · rw [ofNat_of_lt hn]
      simp [value, decimalValue?_digitChar n hn]
    · have hmod : n % 10 < 10 := Nat.mod_lt n (by decide)
      rw [ofNat_of_le (Nat.not_lt.mp hn), value_append, ih (n / 10) (by omega),
        decimalValue?_digitChar _ hmod]
      simp only [Option.getD_some]
      omega

theorem isDigit_of_mem_ofNat {n : Nat} {c : CodePoint} (h : c ∈ ofNat n) : c.isDigit = true := by
  induction n using Nat.strong_induction_on with
  | _ n ih =>
    by_cases hn : n < 10
    · rw [ofNat_of_lt hn, List.mem_singleton] at h
      exact h ▸ isDigit_digitChar n hn
    · rw [ofNat_of_le (Nat.not_lt.mp hn), List.mem_append, List.mem_singleton] at h
      rcases h with h | rfl
      · exact ih (n / 10) (by omega) h
      · exact isDigit_digitChar _ (Nat.mod_lt n (by decide))

/-- A numeral begins with a zero only if it is zero's. -/
theorem ofNat_eq_cons {n : Nat} (h : 0 < n) :
    ∃ d ds, ofNat n = d :: ds ∧ d ≠ CodePoint.ofChar '0' := by
  induction n using Nat.strong_induction_on with
  | _ n ih =>
    by_cases hn : n < 10
    · refine ⟨_, _, ofNat_of_lt hn, ?_⟩
      have : ∀ k < 10, 0 < k → CodePoint.ofChar k.digitChar ≠ CodePoint.ofChar '0' := by decide
      exact this n hn h
    · obtain ⟨d, ds, hds, hd⟩ := ih (n / 10) (by omega) (by omega)
      refine ⟨d, ds ++ [CodePoint.ofChar (n % 10).digitChar], ?_, hd⟩
      rw [ofNat_of_le (Nat.not_lt.mp hn), hds]
      rfl

end Numeral

namespace Json

/-- What may stand behind a printed value: nothing, or what separates or closes. -/
def Ends (rest : Text) : Prop :=
  ∀ c ∈ rest.head?, c = CodePoint.ofChar ',' ∨ c = CodePoint.ofChar ']' ∨ c = CodePoint.ofChar '}'

/-- A text that no more digits follow in. -/
def NoDigit (rest : Text) : Prop := ∀ c ∈ rest.head?, c.isDigit = false

theorem digits_append {ds rest : Text} (hds : ∀ c ∈ ds, c.isDigit = true) (hrest : NoDigit rest) :
    digits (ds ++ rest) = (ds, rest) := by
  rw [digits, List.takeWhile_append_of_pos hds, List.dropWhile_append_of_pos hds]
  cases rest with
  | nil => simp
  | cons c cs => simp [hrest c rfl]

/-- A whole part as it is written: a zero, or digits that do not begin with one. -/
def IsWhole (ds : Text) : Prop :=
  ds = [CodePoint.ofChar '0'] ∨
    ∃ e es, ds = e :: es ∧ e ≠ CodePoint.ofChar '0' ∧ ∀ c ∈ ds, c.isDigit = true

theorem IsWhole.isDigit {ds : Text} (h : IsWhole ds) : ∀ c ∈ ds, c.isDigit = true := by
  rcases h with rfl | ⟨_, _, _, _, hdigits⟩
  · decide
  · exact hdigits

theorem visible_of_isDigit {ds : Text} (h : ∀ c ∈ ds, c.isDigit = true) : ds.Visible := by
  intro c hc
  have hdigit := h c hc
  simp only [CodePoint.isDigit, Bool.and_eq_true, decide_eq_true_eq] at hdigit
  omega

theorem whole?_append {ds rest : Text} (hds : IsWhole ds) (hrest : NoDigit rest) :
    whole? (ds ++ rest) = some (ds, rest) := by
  rcases hds with rfl | ⟨e, es, rfl, he, hdigits⟩
  · simp [whole?]
  · have happend := digits_append hdigits hrest
    have hdigit : e.isDigit = true := hdigits e List.mem_cons_self
    rw [List.cons_append, whole?, if_neg he, if_pos hdigit, ← List.cons_append, happend]

theorem fraction?_append {ds rest : Text} (hne : ds ≠ []) (hds : ∀ c ∈ ds, c.isDigit = true)
    (hrest : NoDigit rest) :
    fraction? (CodePoint.ofChar '.' :: (ds ++ rest)) = some (ds, rest) := by
  obtain ⟨d, ds, rfl⟩ := List.exists_cons_of_ne_nil hne
  have hdigit : d.isDigit = true := hds d List.mem_cons_self
  have happend := digits_append hds hrest
  rw [List.cons_append] at happend ⊢
  simp [fraction?, hdigit, happend]

theorem fraction?_none {rest : Text} (h : rest.head? ≠ some (CodePoint.ofChar '.')) :
    fraction? rest = none := by
  rw [fraction?.eq_def]
  split
  · rename_i c d ds
    have hc : c ≠ CodePoint.ofChar '.' := fun hc => h (congrArg some hc)
    simp [hc]
  · rfl

private theorem exponent?_append {negative : Bool} {ds rest : Text} (hne : ds ≠ [])
    (hds : ∀ c ∈ ds, c.isDigit = true) (hrest : NoDigit rest) :
    exponent? (CodePoint.ofChar 'e' ::
      (if negative then CodePoint.ofChar '-' else CodePoint.ofChar '+') :: (ds ++ rest)) =
        some ((negative, ds), rest) := by
  have happend := digits_append hds hrest
  have hplus : CodePoint.ofChar '+' ≠ CodePoint.ofChar '-' := by decide
  cases ds with
  | nil => exact absurd rfl hne
  | cons d ds =>
    rw [List.cons_append] at happend ⊢
    cases negative <;> simp [exponent?, hplus, happend]

theorem exponent?_none {rest : Text} (h : rest.head? ≠ some (CodePoint.ofChar 'e'))
    (h' : rest.head? ≠ some (CodePoint.ofChar 'E')) : exponent? rest = none := by
  cases rest with
  | nil => rfl
  | cons c cs =>
    have hc : c ≠ CodePoint.ofChar 'e' := fun hc => h (congrArg some hc)
    have hc' : c ≠ CodePoint.ofChar 'E' := fun hc => h' (congrArg some hc)
    simp [exponent?, hc, hc']

def sign (negative : Bool) : Text := if negative then [CodePoint.ofChar '-'] else []

theorem lexeme?_of_parts {t body afterWhole afterFraction rest : Text} {l : Lexeme}
    (hsign : t = sign l.negative ++ body)
    (hwhole : whole? body = some (l.whole, afterWhole))
    (hfraction : fraction? afterWhole = l.fraction.map (·, afterFraction))
    (hfraction' : l.fraction = none → afterFraction = afterWhole)
    (hexponent : exponent? afterFraction = l.exponent.map (·, rest))
    (hexponent' : l.exponent = none → rest = afterFraction) : lexeme? t = some (l, rest) := by
  obtain ⟨c, cs, rfl, _⟩ := whole?_head hwhole
  have hdigit := isDigit_of_whole? hwhole
  have hminus : c ≠ CodePoint.ofChar '-' := by
    rintro rfl
    cases hdigit
  obtain ⟨negative, whole, fraction, exponent⟩ := l
  dsimp only at *
  subst hsign
  have hopen : lexeme? (sign negative ++ c :: cs) =
      (lexeme? (c :: cs)).map fun found => ({ found.1 with negative }, found.2) := by
    cases negative with
    | false => simp [lexeme?, sign, hminus, hwhole]
    | true => simp [lexeme?, sign, hminus, hwhole]
  rw [hopen]
  cases fraction with
  | none =>
    cases hfraction' rfl
    cases exponent with
    | none =>
      cases hexponent' rfl
      simp_all [lexeme?]
    | some e => simp_all [lexeme?]
  | some ds =>
    cases exponent with
    | none =>
      cases hexponent' rfl
      simp_all [lexeme?]
    | some e => simp_all [lexeme?]

namespace Lexeme

def fractionText (l : Lexeme) : Text :=
  match l.fraction with
  | none => []
  | some ds => CodePoint.ofChar '.' :: ds

def exponentText (l : Lexeme) : Text :=
  match l.exponent with
  | none => []
  | some (negative, ds) =>
    CodePoint.ofChar 'e' :: (if negative then CodePoint.ofChar '-' else CodePoint.ofChar '+') :: ds

def text (l : Lexeme) : Text :=
  sign l.negative ++ (l.whole ++ (l.fractionText ++ l.exponentText))

structure WellFormed (l : Lexeme) : Prop where
  whole : IsWhole l.whole
  fraction : ∀ ds ∈ l.fraction, ds ≠ [] ∧ ∀ c ∈ ds, c.isDigit = true
  exponent : ∀ e ∈ l.exponent, e.2 ≠ [] ∧ ∀ c ∈ e.2, c.isDigit = true

private theorem WellFormed.visible_text {l : Lexeme} (h : l.WellFormed) : l.text.Visible := by
  have hsign : (sign l.negative).Visible := by
    rw [sign]
    split <;> decide
  have hfraction : l.fractionText.Visible := by
    rw [fractionText]
    split
    · exact nofun
    · rename_i ds hds
      have hpoint : Text.Visible [CodePoint.ofChar '.'] := by decide
      exact hpoint.append (visible_of_isDigit (h.fraction ds hds).2)
  have hexponent : l.exponentText.Visible := by
    rw [exponentText]
    split
    · exact nofun
    · rename_i negative ds hds
      have hmark : Text.Visible [CodePoint.ofChar 'e',
          if negative then CodePoint.ofChar '-' else CodePoint.ofChar '+'] := by
        cases negative <;> decide
      exact hmark.append (visible_of_isDigit (h.exponent (negative, ds) hds).2)
  exact hsign.append ((visible_of_isDigit h.whole.isDigit).append (hfraction.append hexponent))

private theorem behind_fraction {rest : Text} (hrest : Ends rest) (l : Lexeme) :
    ∀ c ∈ (l.exponentText ++ rest).head?, c.isDigit = false ∧ c ≠ CodePoint.ofChar '.' := by
  intro c hc
  rw [exponentText] at hc
  split at hc
  · rcases hrest c hc with rfl | rfl | rfl <;> decide
  · cases hc
    decide

private theorem behind_whole {rest : Text} (hrest : Ends rest) (l : Lexeme) :
    NoDigit (l.fractionText ++ (l.exponentText ++ rest)) := by
  intro c hc
  rw [fractionText] at hc
  split at hc
  · exact (behind_fraction hrest l c hc).1
  · cases hc
    decide

private theorem exponent?_text {l : Lexeme} (h : l.WellFormed) {rest : Text} (hrest : Ends rest) :
    exponent? (l.exponentText ++ rest) = l.exponent.map (·, rest) := by
  have hend : NoDigit rest := by
    intro c hc
    rcases hrest c hc with rfl | rfl | rfl <;> decide
  rw [exponentText]
  split
  · rename_i hnone
    rw [hnone]
    apply exponent?_none
    · intro he
      rcases hrest _ he with h | h | h <;> revert h <;> decide
    · intro he
      rcases hrest _ he with h | h | h <;> revert h <;> decide
  · rename_i negative ds hsome
    obtain ⟨hne, hds⟩ := h.exponent _ hsome
    rw [hsome]
    exact exponent?_append hne hds hend

private theorem fraction?_text {l : Lexeme} (h : l.WellFormed) {rest : Text} (hrest : Ends rest) :
    fraction? (l.fractionText ++ (l.exponentText ++ rest)) =
      l.fraction.map (·, l.exponentText ++ rest) := by
  have hbehind := behind_fraction hrest l
  rw [fractionText]
  split
  · rename_i hnone
    rw [hnone]
    exact fraction?_none fun hc => (hbehind _ hc).2 rfl
  · rename_i ds hsome
    obtain ⟨hne, hds⟩ := h.fraction _ hsome
    rw [hsome]
    exact fraction?_append hne hds fun c hc => (hbehind c hc).1

theorem lexeme?_text {l : Lexeme} (h : l.WellFormed) {rest : Text} (hrest : Ends rest) :
    lexeme? (l.text ++ rest) = some (l, rest) := by
  have hsign : l.text ++ rest =
      sign l.negative ++ (l.whole ++ (l.fractionText ++ (l.exponentText ++ rest))) := by
    rw [text]
    simp only [List.append_assoc]
  apply lexeme?_of_parts hsign
  · exact whole?_append h.whole (behind_whole hrest l)
  · exact fraction?_text h hrest
  · intro hnone
    rw [fractionText, hnone]
    rfl
  · exact exponent?_text h hrest
  · intro hnone
    rw [exponentText, hnone]
    rfl

theorem value_float {l : Lexeme} (h : l.fraction.isSome ∨ l.exponent.isSome) :
    ∃ y, l.value = .ok (.float y) := by
  obtain ⟨negative, whole, fraction, exponent⟩ := l
  cases fraction with
  | some ds => exact ⟨_, rfl⟩
  | none =>
    cases exponent with
    | some e => exact ⟨_, rfl⟩
    | none => simp at h

end Lexeme

theorem atom_of_lexeme {t rest : Text} {l : Lexeme} {v : Json} (h : lexeme? t = some (l, rest))
    (hv : l.value = .ok v) : atom t = .ok (v, rest) := by
  simp only [atom, word?_of_lexeme? h, h, hv]

private theorem isWhole_ofNat (n : Nat) : IsWhole (Numeral.ofNat n) := by
  rcases Nat.eq_zero_or_pos n with rfl | hn
  · exact .inl rfl
  · obtain ⟨d, ds, hds, hd⟩ := Numeral.ofNat_eq_cons hn
    exact .inr ⟨d, ds, hds, hd, fun c => Numeral.isDigit_of_mem_ofNat⟩

def Lexeme.ofInt (n : Int) : Lexeme := ⟨n < 0, Numeral.ofNat n.natAbs, none, none⟩

private theorem Lexeme.wellFormed_ofInt (n : Int) : (ofInt n).WellFormed :=
  ⟨isWhole_ofNat n.natAbs, nofun, nofun⟩

private theorem Lexeme.text_ofInt (n : Int) : (ofInt n).text = Numeral.ofInt n := by
  rw [Numeral.ofInt, Lexeme.text]
  by_cases h : n < 0 <;> simp [ofInt, h, sign, fractionText, exponentText]

theorem visible_ofInt (n : Int) : (Numeral.ofInt n).Visible :=
  Lexeme.text_ofInt n ▸ (Lexeme.wellFormed_ofInt n).visible_text

theorem atom_ofInt {n : Int} (hn : (Numeral.ofNat n.natAbs).length ≤ Numeral.limit) {rest : Text}
    (hrest : Ends rest) : atom (Numeral.ofInt n ++ rest) = .ok (.int n, rest) := by
  have hvalue : (Lexeme.ofInt n).value = .ok (.int n) := by
    simp only [Lexeme.value, Lexeme.ofInt, Numeral.read, if_pos hn, Numeral.value_ofNat, ok_bind]
    by_cases h : n < 0
    · simp only [h, decide_true, if_true]
      congr 2
      omega
    · simp only [h, decide_false, Bool.false_eq_true, if_false]
      congr 2
      omega
  rw [← Lexeme.text_ofInt]
  exact atom_of_lexeme (Lexeme.lexeme?_text (Lexeme.wellFormed_ofInt n) hrest) hvalue

end Json

namespace Binary64

open Json

private theorem isDigit_zero : (CodePoint.ofChar '0').isDigit = true := by decide

private theorem isDigit_of_mem_zeros {n : Nat} {c : CodePoint}
    (h : c ∈ List.replicate n (CodePoint.ofChar '0')) : c.isDigit = true :=
  List.eq_of_mem_replicate h ▸ isDigit_zero

theorem Decimal.places_cons {x : Decimal} (h : 0 < x.digits) :
    ∃ d ds, x.places.1 = d :: ds ∧ d ≠ CodePoint.ofChar '0' ∧
      ∀ c ∈ x.places.1, c.isDigit = true := by
  obtain ⟨d, ds, hds, hd⟩ := Numeral.ofNat_eq_cons h
  have hfst : x.places.1 = (Numeral.ofNat x.digits).rdropWhile (· = CodePoint.ofChar '0') := rfl
  have hpre : x.places.1 <+: Numeral.ofNat x.digits := hfst ▸ List.rdropWhile_prefix _ _
  have hne : x.places.1 ≠ [] := by
    intro hnil
    rw [hfst, List.rdropWhile_eq_nil_iff, hds] at hnil
    exact hd (of_decide_eq_true (hnil d List.mem_cons_self))
  obtain ⟨k, ks, hk⟩ := List.exists_cons_of_ne_nil hne
  have hhead : k = d := by
    rw [hk, hds, List.cons_prefix_cons] at hpre
    exact hpre.1
  exact ⟨k, ks, hk, hhead ▸ hd, fun c hc => Numeral.isDigit_of_mem_ofNat (hpre.subset hc)⟩

/-- A number that is told from an integer by its point or its exponent. -/
def IsFloat (t : Text) : Prop :=
  ∃ l : Lexeme, l.WellFormed ∧ t = l.text ∧ (l.fraction.isSome ∨ l.exponent.isSome)

private theorem isFloat_fraction {whole ds : Text} (hwhole : IsWhole whole) (hne : ds ≠ [])
    (hds : ∀ c ∈ ds, c.isDigit = true) (negative : Bool) :
    IsFloat (sign negative ++ (whole ++ CodePoint.ofChar '.' :: ds)) := by
  refine ⟨⟨negative, whole, some ds, none⟩, ⟨hwhole, ?_, nofun⟩, ?_, .inl rfl⟩
  · rintro _ ⟨⟩
    exact ⟨hne, hds⟩
  · simp [Lexeme.text, Lexeme.fractionText, Lexeme.exponentText]

private theorem isFloat_exponent {d : CodePoint} {ds es : Text} (hd : d ≠ CodePoint.ofChar '0')
    (hdigits : ∀ c ∈ d :: ds, c.isDigit = true) (hne : es ≠ [])
    (hes : ∀ c ∈ es, c.isDigit = true) (negative down : Bool) :
    IsFloat (sign negative ++
      ((if (d :: ds).length ≤ 1 then d :: ds else [d] ++ CodePoint.ofChar '.' :: ds) ++
        CodePoint.ofChar 'e' :: (if down then CodePoint.ofChar '-' else CodePoint.ofChar '+') ::
          es)) := by
  rw [List.forall_mem_cons] at hdigits
  have hwhole : IsWhole [d] := .inr ⟨d, [], rfl, hd, by simpa using hdigits.1⟩
  have hexponent : ∀ e ∈ some (down, es), e.2 ≠ [] ∧ ∀ c ∈ e.2, c.isDigit = true := by
    rintro _ ⟨⟩
    exact ⟨hne, hes⟩
  cases ds with
  | nil =>
    refine ⟨⟨negative, [d], none, some (down, es)⟩, ⟨hwhole, nofun, hexponent⟩, ?_, .inr rfl⟩
    simp [Lexeme.text, Lexeme.fractionText, Lexeme.exponentText]
  | cons d' ds =>
    refine ⟨⟨negative, [d], some (d' :: ds), some (down, es)⟩, ⟨hwhole, ?_, hexponent⟩, ?_,
      .inr rfl⟩
    · rintro _ ⟨⟩
      exact ⟨nofun, hdigits.2⟩
    · simp [Lexeme.text, Lexeme.fractionText, Lexeme.exponentText]

private theorem isDigit_padded (n : Nat) : ∀ c ∈ (if (Numeral.ofNat n).length < 2
    then CodePoint.ofChar '0' :: Numeral.ofNat n else Numeral.ofNat n), c.isDigit = true := by
  intro c hc
  split at hc
  · rcases List.mem_cons.mp hc with rfl | hc
    · exact isDigit_zero
    · exact Numeral.isDigit_of_mem_ofNat hc
  · exact Numeral.isDigit_of_mem_ofNat hc

private theorem padded_ne_nil (n : Nat) : (if (Numeral.ofNat n).length < 2
    then CodePoint.ofChar '0' :: Numeral.ofNat n else Numeral.ofNat n) ≠ [] := by
  split
  · exact List.cons_ne_nil _ _
  · exact fun hnil => Nat.toDigits_ne_nil (List.map_eq_nil_iff.mp hnil)

private theorem isFloat_layout {d : CodePoint} {ds : Text} (hd : d ≠ CodePoint.ofChar '0')
    (hdigits : ∀ c ∈ d :: ds, c.isDigit = true) (point : Int) (negative : Bool) :
    IsFloat (sign negative ++ layout (d :: ds) point) := by
  have hwhole {es : Text} (hes : ∀ c ∈ es, c.isDigit = true) : IsWhole (d :: es) := by
    refine .inr ⟨d, es, rfl, hd, ?_⟩
    rw [List.forall_mem_cons]
    exact ⟨hdigits d List.mem_cons_self, hes⟩
  rw [layout]
  split
  · split
    -- The point stands before all digits, behind all of them, or among them.
    · have hzero : IsWhole [CodePoint.ofChar '0'] := .inl rfl
      have hall : ∀ c ∈ List.replicate (-point).toNat (CodePoint.ofChar '0') ++ d :: ds,
          c.isDigit = true := by
        rw [List.forall_mem_append]
        exact ⟨fun c => isDigit_of_mem_zeros, hdigits⟩
      exact isFloat_fraction hzero (by simp) hall negative
    · split
      · have hzeros : ∀ c ∈ ds ++ List.replicate (point.toNat - (d :: ds).length)
            (CodePoint.ofChar '0'), c.isDigit = true := by
          rw [List.forall_mem_append]
          exact ⟨fun c hc => hdigits c (List.mem_cons_of_mem d hc), fun c => isDigit_of_mem_zeros⟩
        have hone : ∀ c ∈ [CodePoint.ofChar '0'], c.isDigit = true := by decide
        have hne : [CodePoint.ofChar '0'] ≠ [] := nofun
        exact isFloat_fraction (hwhole hzeros) hne hone negative
      · rename_i hpoint hlen
        obtain ⟨k, hk⟩ : ∃ k, point.toNat = k + 1 := ⟨point.toNat - 1, by omega⟩
        have htake : ∀ c ∈ ds.take k, c.isDigit = true :=
          fun c hc => hdigits c (List.mem_cons_of_mem d (List.mem_of_mem_take hc))
        have hdrop : ∀ c ∈ ds.drop k, c.isDigit = true :=
          fun c hc => hdigits c (List.mem_cons_of_mem d (List.mem_of_mem_drop hc))
        have hne : ds.drop k ≠ [] := by
          rw [Ne, List.drop_eq_nil_iff]
          simp only [List.length_cons] at hlen
          omega
        rw [hk, List.take_succ_cons, List.drop_succ_cons, List.append_assoc]
        exact isFloat_fraction (hwhole htake) hne hdrop negative
  · have hsign : (if point - 1 < 0 then Text.ofString "-" else Text.ofString "+") =
        [if decide (point - 1 < 0) then CodePoint.ofChar '-' else CodePoint.ofChar '+'] := by
      by_cases h : point - 1 < 0
      · rw [if_pos h, if_pos (decide_eq_true h)]
        rfl
      · rw [if_neg h, if_neg (by simpa using h)]
        rfl
    simp only [hsign, List.append_assoc]
    exact isFloat_exponent hd hdigits (padded_ne_nil _) (isDigit_padded _) negative
      (decide (point - 1 < 0))

private theorem onGrid?_digits_pos {m low n d : Nat} {exponent : Int} {x : Decimal} (hlow : 0 < low)
    (hn : 0 < n) (h : onGrid? m low n d exponent = some x) : 0 < x.digits := by
  have hunits : 0 < (inUnits n (4 * d) exponent).1 := by
    rw [inUnits]
    split
    · exact hn
    · exact Nat.mul_pos hn (Nat.pow_pos (by decide))
  have hpos := Nat.mul_pos hlow hunits
  unfold onGrid? at h
  extract_lets at4 inside below nearer farther at h
  have hinside : inside 0 = false := by
    simp only [inside, Nat.zero_mul]
    split <;> simp [at4, Nat.ne_of_gt hpos]
  have hne {k : Nat} (hk : inside k = true) : 0 < k := by
    rcases Nat.eq_zero_or_pos k with rfl | hpos
    · cases hinside.symm.trans hk
    · exact hpos
  split at h
  · rename_i hk
    cases h
    exact hne hk
  · split at h
    · rename_i hk
      cases h
      exact hne hk
    · cases h

/-- The shortest decimal has a digit that is not zero, unless nothing is left of it. -/
theorem shortest_digits {m : Nat} (hm : 0 < m) (e : Int) :
    0 < (shortest m e).digits ∨ shortest m e = ⟨0, 0⟩ := by
  obtain ⟨n, d, hn, hscale⟩ : ∃ n d : Nat, 0 < n ∧
      (if e ≥ 0 then (Nat.pow 2 e.toNat, 1) else (1, Nat.pow 2 (-e).toNat)) = (n, d) := by
    split
    · exact ⟨_, _, Nat.pow_pos (by decide), rfl⟩
    · exact ⟨_, _, by decide, rfl⟩
  unfold shortest
  rw [hscale]
  dsimp only
  generalize hlow : (if (m = leastNormal && e > minExponent) = true then 4 * m - 1
    else 4 * m - 2) = low
  have hpos : 0 < low := by
    rw [← hlow]
    split <;> omega
  generalize hgrids : (List.range 17).map _ = grids
  cases hfound : grids.findSome? id with
  | none =>
    rw [Option.getD_none]
    rcases Nat.eq_zero_or_pos (m * n / d) with h | h
    · exact .inr (by rw [h])
    · exact .inl h
  | some x =>
    obtain ⟨grid, hmem, hgrid⟩ := List.exists_of_findSome?_eq_some hfound
    rw [← hgrids] at hmem
    obtain ⟨count, -, hcount⟩ := List.mem_map.mp hmem
    exact .inl (onGrid?_digits_pos hpos hn (hcount.trans hgrid))

private theorem isFloat_toText (negative : Bool) (m : Nat) (e : Int) :
    IsFloat (toText (.finite negative m e)) := by
  have hzero : IsFloat (sign negative ++ Text.ofString "0.0") := by
    have hone : ∀ c ∈ [CodePoint.ofChar '0'], c.isDigit = true := by decide
    have hne : [CodePoint.ofChar '0'] ≠ [] := nofun
    exact isFloat_fraction (.inl rfl) hne hone negative
  have htext : toText (.finite negative m e) = sign negative ++
      if m = 0 then Text.ofString "0.0"
      else layout (shortest m e).places.1 (shortest m e).places.2 := by
    cases negative <;> rfl
  rw [htext]
  by_cases hm : m = 0
  · rw [if_pos hm]
    exact hzero
  · rw [if_neg hm]
    rcases shortest_digits (Nat.pos_of_ne_zero hm) e with hpos | hnone
    · obtain ⟨d, ds, hds, hd, hdigits⟩ := Decimal.places_cons hpos
      rw [hds] at hdigits ⊢
      exact isFloat_layout hd hdigits _ negative
    · rw [hnone]
      exact hzero

theorem visible_toText (x : Binary64) : x.toText.Visible := by
  cases x with
  | nan => decide
  | infinite negative => cases negative <;> decide
  | finite negative m e =>
    obtain ⟨l, hl, htext, _⟩ := isFloat_toText negative m e
    exact htext ▸ hl.visible_text

/-- The number that is read where this one was printed. -/
def reread (x : Binary64) : Binary64 :=
  match atom x.toText with
  | .ok (.float y, _) => y
  | _ => x

theorem atom_toText (x : Binary64) {rest : Text} (hrest : Ends rest) :
    atom (x.toText ++ rest) = .ok (.float x.reread, rest) := by
  have hnil : Ends [] := nofun
  cases x with
  | nan => exact atom_of_word (List.mem_of_getElem? (i := 3) rfl) rest
  | infinite negative =>
    cases negative with
    | false => exact atom_of_word (List.mem_of_getElem? (i := 4) rfl) rest
    | true => exact atom_of_word (List.mem_of_getElem? (i := 5) rfl) rest
  | finite negative m e =>
    obtain ⟨l, hl, htext, hfloat⟩ := isFloat_toText negative m e
    obtain ⟨y, hy⟩ := Lexeme.value_float hfloat
    have hread : reread (.finite negative m e) = y := by
      have halone := atom_of_lexeme (l.lexeme?_text hl hnil) hy
      rw [List.append_nil] at halone
      rw [reread, htext, halone]
    rw [hread, htext]
    exact atom_of_lexeme (l.lexeme?_text hl hrest) hy

end Binary64

end RubyLanguageServer
