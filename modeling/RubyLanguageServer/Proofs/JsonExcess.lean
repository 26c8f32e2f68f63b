import RubyLanguageServer.Proofs.JsonReader
/-!
# Integers with too many digits

The reader takes no integer of more than `Numeral.limit` digits, and it stops there in a way of its
own. `Overruns` says without fuel when that happens: everything before such an integer can be read.
-/
namespace RubyLanguageServer

namespace Json

/-- The integer at the beginning of a text, written with too many digits. -/
def LongInteger (digits : Nat) (t : Text) : Prop :=
  ∃ (l : Lexeme) (rest : Text), lexeme? t = some (l, rest) ∧ l.fraction = none ∧
    l.exponent = none ∧ l.whole.length = digits ∧ Numeral.limit < digits

theorem isDigit_of_whole? {c : CodePoint} {cs ds rest : Text}
    (h : whole? (c :: cs) = some (ds, rest)) : c.isDigit := by
  rw [whole?] at h
  split at h
  · rename_i hc
    rw [hc]
    decide
  · split at h
    · assumption
    · cases h

/-- A number is not a word, although one word begins with a minus sign. -/
theorem word?_of_lexeme? {t rest : Text} {l : Lexeme} (h : lexeme? t = some (l, rest)) :
    word? t = none := by
  have hletters : ∀ w ∈ words, ∃ c d cs, w.1 = c :: d :: cs ∧ ¬c.isDigit ∧ ¬d.isDigit := by
    simp only [words, List.forall_mem_cons]
    refine ⟨⟨_, _, _, rfl, by decide, by decide⟩, ⟨_, _, _, rfl, by decide, by decide⟩,
      ⟨_, _, _, rfl, by decide, by decide⟩, ⟨_, _, _, rfl, by decide, by decide⟩,
      ⟨_, _, _, rfl, by decide, by decide⟩, ⟨_, _, _, rfl, by decide, by decide⟩, nofun⟩
  obtain ⟨body, _, _, hsign, hwhole, _⟩ := lexeme?_parts h
  obtain ⟨b, bs, rfl, _⟩ := whole?_head hwhole
  have hdigit := isDigit_of_whole? hwhole
  rw [word?, List.findSome?_eq_none_iff]
  rintro ⟨word, v⟩ hmem
  obtain ⟨c, d, cs, hword, hc, hd⟩ := hletters _ hmem
  dsimp only at hword
  rw [Option.map_eq_none_iff, hword]
  rcases hsign with ⟨_, rfl⟩ | ⟨_, rfl⟩
  · have hne : b ≠ d := fun hbd => hd (hbd ▸ hdigit)
    simp only [Text.after?, if_neg hne, ite_self]
  · have hne : b ≠ c := fun hbc => hc (hbc ▸ hdigit)
    simp only [Text.after?, if_neg hne]

theorem Lexeme.value_eq_error_iff {l : Lexeme} {e : Numeral.Excess} :
    l.value = .error e ↔ l.fraction = none ∧ l.exponent = none ∧
      Numeral.limit < l.whole.length ∧ e = .read l.whole.length := by
  obtain ⟨negative, whole, fraction, exponent⟩ := l
  cases fraction with
  | some ds => simp [Lexeme.value]
  | none =>
    cases exponent with
    | some ds => simp [Lexeme.value]
    | none =>
      simp only [Lexeme.value, Numeral.read]
      split
      · rename_i hle
        simp only [ok_bind, true_and]
        exact ⟨nofun, fun h => absurd hle (Nat.not_le_of_lt h.1)⟩
      · rename_i hgt
        simp only [error_bind, Except.error.injEq, true_and, Nat.lt_of_not_le hgt]
        exact eq_comm

theorem atom_eq_excess_iff {t : Text} {e : Numeral.Excess} :
    atom t = .error (.excess e) ↔ ∃ digits, e = .read digits ∧ LongInteger digits t := by
  constructor
  · intro h
    rw [atom] at h
    split at h
    · cases h
    · split at h
      · cases h
      · rename_i l rest hlexeme
        split at h
        · cases h
        · rename_i e' hvalue
          cases h
          obtain ⟨hfraction, hexponent, hlimit, rfl⟩ := Lexeme.value_eq_error_iff.mp hvalue
          exact ⟨_, rfl, l, rest, hlexeme, hfraction, hexponent, rfl, hlimit⟩
  · rintro ⟨digits, rfl, l, rest, hlexeme, hfraction, hexponent, rfl, hlimit⟩
    have hvalue := Lexeme.value_eq_error_iff.mpr ⟨hfraction, hexponent, hlimit, rfl⟩
    simp only [atom, word?_of_lexeme? hlexeme, hlexeme, hvalue]

/-- All that stands before some integer of a part can be read, and that integer has too many
digits. -/
inductive Overruns (digits : Nat) : Part → Text → Prop
  | integer {t : Text} : LongInteger digits t → Overruns digits .value t
  | array {cs : Text} :
      Overruns digits .items (skipSpace cs) → Overruns digits .value (CodePoint.ofChar '[' :: cs)
  | object {cs : Text} :
      Overruns digits .members (skipSpace cs) → Overruns digits .value (CodePoint.ofChar '{' :: cs)
  | item {t : Text} : Overruns digits .value t → Overruns digits .items t
  | laterItem {t rest cs : Text} {v : Json} :
      Reads t (.value v) rest → skipSpace rest = CodePoint.ofChar ',' :: cs →
      Overruns digits .items (skipSpace cs) → Overruns digits .items t
  | member {qs key rest cs : Text} :
      string qs = .ok (key, rest) → skipSpace rest = CodePoint.ofChar ':' :: cs →
      Overruns digits .value (skipSpace cs) →
      Overruns digits .members (CodePoint.ofChar '"' :: qs)
  | laterMember {qs key rest cs rest' ds : Text} {v : Json} :
      string qs = .ok (key, rest) → skipSpace rest = CodePoint.ofChar ':' :: cs →
      Reads (skipSpace cs) (.value v) rest' → skipSpace rest' = CodePoint.ofChar ',' :: ds →
      Overruns digits .members (skipSpace ds) →
      Overruns digits .members (CodePoint.ofChar '"' :: qs)

private theorem Overruns.head_ne_bracket {digits : Nat} {p : Part} {t : Text}
    (h : Overruns digits p t) :
    t.head? ≠ some (CodePoint.ofChar ']') := by
  induction h with
  | array | object | member | laterMember =>
    exact fun h => absurd (Option.some.inj h) (by decide)
  | integer hint =>
    obtain ⟨l, rest, hlexeme, _⟩ := hint
    obtain ⟨c, cs, rfl, hmem⟩ := lexeme?_head hlexeme
    intro hc
    exact hmem (Option.some.inj hc ▸ by decide)
  | item _ ih => exact ih
  | laterItem hv => exact hv.head_ne_bracket

private theorem Overruns.members_head {digits : Nat} {t : Text} (h : Overruns digits .members t) :
    ∃ qs, t = CodePoint.ofChar '"' :: qs := by
  cases h with
  | member => exact ⟨_, rfl⟩
  | laterMember => exact ⟨_, rfl⟩

/-- The reader with the given fuel stops at an integer with too many digits. -/
def Part.StopsBy (fuel : Nat) (t : Text) (e : Numeral.Excess) : Part → Prop
  | .value => Json.value fuel t = .error (.excess e)
  | .items => Json.items fuel t = .error (.excess e)
  | .members => ∀ before, Json.members fuel before t = .error (.excess e)

private theorem pieces_ne_excess {start t : Text} {e : Numeral.Excess} :
    pieces start t ≠ .error (.excess e) := by
  fun_induction pieces start t with
  | case1 | case2 | case3 | case4 | case6 | case7 | case9 =>
    intro h
    cases h
  | case5 _ _ _ _ _ _ _ _ _ ih =>
    intro h
    rcases bind_eq_error.mp h with h | ⟨_, _, h⟩
    · exact ih h
    · cases h
  | case8 _ _ _ _ _ _ ih =>
    intro h
    rcases bind_eq_error.mp h with h | ⟨_, _, h⟩
    · exact ih h
    · cases h
  | case10 _ _ _ _ _ ih =>
    intro h
    rcases bind_eq_error.mp h with h | ⟨_, _, h⟩
    · exact ih h
    · cases h

private theorem string_ne_excess {t : Text} {e : Numeral.Excess} : string t ≠ .error (.excess e) :=
    by
  intro h
  rcases bind_eq_error.mp h with h | ⟨_, _, h⟩
  · exact pieces_ne_excess h
  · cases h

/-- With enough fuel the reader stops at the integer. -/
theorem stops_of_overruns {digits : Nat} {p : Part} {t : Text} (h : Overruns digits p t)
    {fuel : Nat} (hfuel : p.fuel t.length ≤ fuel) : p.StopsBy fuel t (.read digits) := by
  obtain ⟨fuel, rfl⟩ := Nat.exists_eq_add_one.mpr (Nat.lt_of_lt_of_le (Part.fuel_pos _ _) hfuel)
  induction h generalizing fuel with
  | integer hint =>
    obtain ⟨c, cs, rfl, hc⟩ := lexeme?_head hint.choose_spec.choose_spec.1
    rw [Part.StopsBy, value_atom_step cs fuel hc]
    exact atom_eq_excess_iff.mpr ⟨_, rfl, hint⟩
  | @array cs hitems ih =>
    have hlen := (skipSpace_suffix cs).length_le
    simp only [Part.fuel, List.length_cons] at hfuel ih
    obtain ⟨fuel, rfl⟩ := Nat.exists_eq_add_one.mpr (by omega : 0 < fuel)
    have hstop : items (fuel + 1) (skipSpace cs) = .error (.excess (.read digits)) :=
      ih fuel (by omega)
    rw [Part.StopsBy, value_array_step _ hitems.head_ne_bracket, hstop]
    rfl
  | @object cs hmembers ih =>
    have hlen := (skipSpace_suffix cs).length_le
    obtain ⟨qs, hqs⟩ := hmembers.members_head
    simp only [Part.fuel, List.length_cons] at hfuel ih
    obtain ⟨fuel, rfl⟩ := Nat.exists_eq_add_one.mpr (by omega : 0 < fuel)
    have hstop : members (fuel + 1) [] (skipSpace cs) = .error (.excess (.read digits)) :=
      ih fuel (by omega) []
    rw [Part.StopsBy, value_object_step _ hqs, hstop]
    rfl
  | @item t hv ih =>
    simp only [Part.fuel] at hfuel ih
    obtain ⟨fuel, rfl⟩ := Nat.exists_eq_add_one.mpr (by omega : 0 < fuel)
    have hstop : value (fuel + 1) t = .error (.excess (.read digits)) := ih fuel (by omega)
    rw [Part.StopsBy, items, hstop]
    rfl
  | @laterItem t rest cs v hv hs hitems ih =>
    have hlen := hv.behind.length_lt
    have hlen' := (skipSpace_behind hs).length_lt
    simp only [Part.fuel] at hfuel ih
    obtain ⟨fuel, rfl⟩ := Nat.exists_eq_add_one.mpr (by omega : 0 < fuel)
    have hvalue : value (fuel + 1) t = .ok (v, rest) :=
      found_of_reads hv (by simp only [Found.part, Part.fuel]; omega)
    have hstop : items (fuel + 1) (skipSpace cs) = .error (.excess (.read digits)) :=
      ih fuel (by omega)
    rw [Part.StopsBy, items_step hvalue hs, hstop]
    rfl
  | @member qs key rest cs hk hc hv ih =>
    have hlen := (string_behind hk).length_lt
    have hlen' := (skipSpace_behind hc).length_lt
    simp only [Part.fuel, List.length_cons] at hfuel ih
    obtain ⟨fuel, rfl⟩ := Nat.exists_eq_add_one.mpr (by omega : 0 < fuel)
    have hstop : value (fuel + 1) (skipSpace cs) = .error (.excess (.read digits)) :=
      ih fuel (by omega)
    intro before
    simp only [members, if_true, hk, ok_bind, hc, hstop, error_bind]
  | @laterMember qs key rest cs rest' ds v hk hc hv hd hmembers ih =>
    have hlen := (string_behind hk).length_lt
    have hlen' := (skipSpace_behind hc).length_lt
    have hvlen := hv.behind.length_lt
    have hdlen := (skipSpace_behind hd).length_lt
    simp only [Part.fuel, List.length_cons] at hfuel ih
    obtain ⟨fuel, rfl⟩ := Nat.exists_eq_add_one.mpr (by omega : 0 < fuel)
    have hvalue : value (fuel + 1) (skipSpace cs) = .ok (v, rest') :=
      found_of_reads hv (by simp only [Found.part, Part.fuel]; omega)
    intro before
    rw [members_step before hk hc hvalue hd]
    exact ih fuel (by omega) _

/-- Whatever the fuel, the reader complains of too many digits only at such an integer. -/
theorem overruns_of_stop (fuel : Nat) (t : Text) (e : Numeral.Excess) :
    (value fuel t = .error (.excess e) → ∃ n, e = .read n ∧ Overruns n .value t) ∧
    (items fuel t = .error (.excess e) → ∃ n, e = .read n ∧ Overruns n .items t) ∧
    (∀ before, members fuel before t = .error (.excess e) →
      ∃ n, e = .read n ∧ Overruns n .members t) := by
  -- Each step either stops at the integer or hands on what an inner reader stopped at.
  induction fuel generalizing t with
  | zero => exact ⟨nofun, nofun, nofun⟩
  | succ fuel ih =>
    refine ⟨fun h => ?_, fun h => ?_, fun before h => ?_⟩
    · have hstep := value_inversion fuel t
      rw [h] at hstep
      cases hstep with
      | badString hs => exact absurd hs string_ne_excess
      | badArray hitems =>
        obtain ⟨n, he, hn⟩ := (ih _).2.1 hitems
        exact ⟨n, he, .array hn⟩
      | badObject hmembers =>
        obtain ⟨n, he, hn⟩ := (ih _).2.2 _ hmembers
        exact ⟨n, he, .object hn⟩
      | atom hatom =>
        obtain ⟨n, he, hn⟩ := atom_eq_excess_iff.mp hatom
        exact ⟨n, he, .integer hn⟩
    · have hstep := items_inversion fuel t
      rw [h] at hstep
      cases hstep with
      | badItem hv =>
        obtain ⟨n, he, hn⟩ := (ih _).1 hv
        exact ⟨n, he, .item hn⟩
      | @badLater _ _ v _ hv hspace hitems =>
        obtain ⟨n, he, hn⟩ := (ih _).2.1 hitems
        exact ⟨n, he, .laterItem (reads_of_found (g := .value v) hv) hspace hn⟩
    · have hstep := members_inversion fuel before t
      rw [h] at hstep
      cases hstep with
      | badKey hkey => exact absurd hkey string_ne_excess
      | badValue hkey hcolon hv =>
        obtain ⟨n, he, hn⟩ := (ih _).1 hv
        exact ⟨n, he, .member hkey hcolon hn⟩
      | @more _ _ _ _ _ _ v _ hkey hcolon hv hcomma hmembers =>
        obtain ⟨n, he, hn⟩ := (ih _).2.2 _ hmembers
        exact ⟨n, he, .laterMember hkey hcolon (reads_of_found (g := .value v) hv) hcomma hn⟩

private theorem Overruns.value_head {digits : Nat} {t : Text} (h : Overruns digits .value t) :
    ∃ c cs, t = c :: cs ∧ c.val ≠ 0xfeff := by
  cases h with
  | array => exact ⟨_, _, rfl, by decide⟩
  | object => exact ⟨_, _, rfl, by decide⟩
  | integer hint =>
    obtain ⟨l, rest, hlexeme, _⟩ := hint
    obtain ⟨body, _, _, hsign, hwhole, _⟩ := lexeme?_parts hlexeme
    rcases hsign with ⟨_, rfl⟩ | ⟨_, rfl⟩
    · exact ⟨_, _, rfl, by decide⟩
    · obtain ⟨c, cs, rfl, _⟩ := whole?_head hwhole
      refine ⟨c, cs, rfl, ?_⟩
      have hdigit := isDigit_of_whole? hwhole
      intro hc
      simp [CodePoint.isDigit, hc] at hdigit

private theorem Overruns.not_marked {digits : Nat} {t : Text}
    (h : Overruns digits .value (skipSpace t)) :
    t.head?.map CodePoint.val ≠ some 0xfeff := by
  cases t with
  | nil => exact nofun
  | cons c cs =>
    intro hc
    have hc : c.val = 0xfeff := Option.some.inj hc
    have hspace : isSpace c = false := by simp [isSpace, hc]
    obtain ⟨c', cs', heq, hne⟩ := h.value_head
    simp only [skipSpace, List.dropWhile_cons, hspace] at heq
    cases heq
    exact hne hc

theorem document_eq_excess_iff {t : Text} {e : Numeral.Excess} :
    document t = .error (.excess e) ↔
      ∃ digits, e = .read digits ∧ Overruns digits .value (skipSpace t) := by
  rw [document_eq]
  constructor
  · intro h
    split at h
    · cases h
    · rcases bind_eq_error.mp h with h | ⟨found, _, h⟩
      · exact (overruns_of_stop _ _ _).1 h
      · rw [finish] at h
        split at h <;> cases h
  · rintro ⟨digits, rfl, h⟩
    have hlen := (skipSpace_suffix t).length_le
    have hstop : value (2 * t.length + 2) (skipSpace t) = .error (.excess (.read digits)) :=
      stops_of_overruns h (by simp only [Part.fuel]; omega)
    rw [if_neg h.not_marked, hstop, error_bind]

theorem read_eq_excess_iff {t : Text} {e : Numeral.Excess} :
    read t = .error (.excess e) ↔
      ∃ digits, e = .read digits ∧ Overruns digits .value (skipSpace t) := by
  rw [← document_eq_excess_iff, read]
  split <;> simp_all

end Json

end RubyLanguageServer
