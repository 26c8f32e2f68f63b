import Mathlib.Tactic.Common
import RubyLanguageServer.Json.Reader
/-!
# What the JSON reader does

The reader is bounded by fuel. Here its work is said without fuel: `Reads` tells what stands at the
beginning of a text and what is left behind it. The two agree as soon as there is enough fuel, and
a whole document always gets enough.
-/
namespace RubyLanguageServer

@[simp] theorem ok_bind {ε α β : Type} (a : α) (f : α → Except ε β) :
    ((Except.ok a : Except ε α) >>= f) = f a := rfl

@[simp] theorem error_bind {ε α β : Type} (e : ε) (f : α → Except ε β) :
    ((Except.error e : Except ε α) >>= f) = .error e := rfl

theorem bind_eq_ok {ε α β : Type} {x : Except ε α} {f : α → Except ε β} {b : β} :
    (x >>= f) = .ok b ↔ ∃ a, x = .ok a ∧ f a = .ok b := by
  cases x with
  | ok a => exact ⟨fun h => ⟨a, rfl, h⟩, fun ⟨_, ha, h⟩ => by cases ha; exact h⟩
  | error e => exact ⟨fun h => (by cases h), fun ⟨_, ha, _⟩ => by cases ha⟩

theorem map_eq_ok {ε α β : Type} {f : α → β} {x : Except ε α} {b : β} :
    x.map f = .ok b ↔ ∃ a, x = .ok a ∧ f a = b := by
  cases x with
  | ok a => simp [Except.map]
  | error e => simp [Except.map]

theorem bind_eq_error {ε α β : Type} {x : Except ε α} {f : α → Except ε β} {e : ε} :
    (x >>= f) = .error e ↔ x = .error e ∨ ∃ a, x = .ok a ∧ f a = .error e := by
  cases x with
  | ok a =>
    refine ⟨fun h => .inr ⟨a, rfl, h⟩, ?_⟩
    rintro (h | ⟨_, ha, h⟩)
    · cases h
    · cases ha
      exact h
  | error e' =>
    constructor
    · intro h
      cases h
      exact .inl rfl
    · rintro (h | ⟨_, ha, _⟩)
      · cases h
        rfl
      · cases ha

namespace Json

/-- What is left of a text when something was taken from its beginning. -/
structure Behind (rest t : Text) : Prop where
  suffix : rest <:+ t
  length_lt : rest.length < t.length

private theorem Behind.cons {rest cs : Text} (h : rest <:+ cs) (c : CodePoint) : Behind rest
    (c :: cs) :=
  ⟨h.trans (List.suffix_cons c cs), Nat.lt_succ_of_le h.length_le⟩

private theorem Behind.of_suffix {rest t t' : Text} (h : Behind rest t) (h' : t <:+ t') : Behind
    rest t' :=
  ⟨h.suffix.trans h', Nat.lt_of_lt_of_le h.length_lt h'.length_le⟩

private theorem Behind.after {rest rest' t : Text} (h : Behind rest t) (h' : rest' <:+ rest) :
    Behind rest' t :=
  ⟨h'.trans h.suffix, Nat.lt_of_le_of_lt h'.length_le h.length_lt⟩

theorem skipSpace_suffix (t : Text) : skipSpace t <:+ t := List.dropWhile_suffix isSpace

private theorem pieces_behind {start t : Text} {ps : List Piece} {rest : Text}
    (h : pieces start t = .ok (ps, rest)) : Behind rest t := by
  fun_induction pieces start t generalizing ps rest with
  | case1 => cases h
  | case2 cs =>
    cases h
    exact .cons List.suffix_rfl _
  | case3 => cases h
  | case4 => cases h
  | case5 h₁ h₂ h₃ h₄ _ _ _ _ _ ih =>
    obtain ⟨⟨_, _⟩, hps, h⟩ := bind_eq_ok.mp h
    cases h
    exact (ih hps).of_suffix ⟨[_, _, h₁, h₂, h₃, h₄], rfl⟩
  | case6 => cases h
  | case7 => cases h
  | case8 _ _ _ _ _ _ ih =>
    obtain ⟨⟨_, _⟩, hps, h⟩ := bind_eq_ok.mp h
    cases h
    exact (ih hps).of_suffix ⟨[_, _], rfl⟩
  | case9 => cases h
  | case10 _ _ _ _ _ ih =>
    obtain ⟨⟨_, _⟩, hps, h⟩ := bind_eq_ok.mp h
    cases h
    exact .cons (ih hps).suffix _

theorem string_behind {t : Text} {s rest : Text} (h : string t = .ok (s, rest)) :
    Behind rest t := by
  obtain ⟨⟨ps, _⟩, hps, h⟩ := bind_eq_ok.mp h
  cases h
  exact pieces_behind hps

private theorem digits_suffix (t : Text) : (digits t).2 <:+ t := List.dropWhile_suffix _

private theorem digits_cons_suffix {c : CodePoint} (hc : c.isDigit) (cs : Text) :
    (digits (c :: cs)).2 <:+ cs := by
  simp only [digits, List.dropWhile_cons, hc, if_true]
  exact List.dropWhile_suffix _

private theorem whole?_behind {t ds rest : Text} (h : whole? t = some (ds, rest)) : Behind rest t :=
    by
  cases t with
  | nil => cases h
  | cons c cs =>
    rw [whole?] at h
    split at h
    · cases h
      exact .cons List.suffix_rfl _
    · split at h
      · rename_i hc
        have hsuffix := digits_cons_suffix hc cs
        rw [Option.some.inj h] at hsuffix
        exact .cons hsuffix c
      · cases h

private theorem fraction?_suffix {t ds rest : Text} (h : fraction? t = some (ds, rest)) :
    rest <:+ t := by
  rw [fraction?.eq_def] at h
  split at h
  · rename_i c d ds'
    split at h
    · have hsuffix := digits_suffix (d :: ds')
      rw [Option.some.inj h] at hsuffix
      exact hsuffix.trans (List.suffix_cons c _)
    · cases h
  · cases h

private theorem exponent?_suffix {t : Text} {e : Bool × Text} {rest : Text}
    (h : exponent? t = some (e, rest)) : rest <:+ t := by
  cases t with
  | nil => cases h
  | cons c cs =>
    simp only [exponent?] at h
    split at h
    · split at h
      · cases h
      · rename_i ds rest' _ hdigits
        cases h
        have hrest : (digits _).2 = rest := congrArg Prod.snd hdigits
        refine (hrest ▸ (digits_suffix _).trans ?_ : rest <:+ cs).trans (List.suffix_cons c cs)
        cases cs with
        | nil => exact List.suffix_rfl
        | cons d ds =>
          dsimp only
          split
          · exact List.suffix_cons d ds
          · split
            · exact List.suffix_cons d ds
            · exact List.suffix_rfl
    · cases h

theorem lexeme?_parts {t : Text} {l : Lexeme} {rest : Text} (h : lexeme? t = some (l, rest)) :
    ∃ body afterWhole afterFraction : Text,
      (l.negative = true ∧ t = CodePoint.ofChar '-' :: body ∨ l.negative = false ∧ t = body) ∧
      whole? body = some (l.whole, afterWhole) ∧
      fraction? afterWhole = l.fraction.map (·, afterFraction) ∧
      (l.fraction = none → afterFraction = afterWhole) ∧
      exponent? afterFraction = l.exponent.map (·, rest) ∧
      (l.exponent = none → rest = afterFraction) := by
  unfold lexeme? at h
  split at h
  rename_i negative body hbody
  obtain ⟨⟨whole, afterWhole⟩, hwhole, h⟩ := Option.bind_eq_some_iff.mp h
  have hsign : negative = true ∧ t = CodePoint.ofChar '-' :: body ∨
      negative = false ∧ t = body := by
    cases t with
    | nil =>
      cases hbody
      exact .inr ⟨rfl, rfl⟩
    | cons c cs =>
      dsimp only at hbody
      split at hbody
      · rename_i hc
        cases hbody
        exact .inl ⟨rfl, by rw [hc]⟩
      · cases hbody
        exact .inr ⟨rfl, rfl⟩
  dsimp only at h
  cases hfraction : fraction? afterWhole with
  | none =>
    cases hexponent : exponent? afterWhole with
    | none =>
      simp only [hfraction, hexponent] at h
      cases h
      exact ⟨_, _, _, hsign, hwhole, hfraction, fun _ => rfl, hexponent,
        fun _ => rfl⟩
    | some found =>
      simp only [hfraction, hexponent] at h
      cases h
      exact ⟨_, _, _, hsign, hwhole, hfraction, fun _ => rfl, hexponent,
        nofun⟩
  | some found =>
    obtain ⟨ds, afterFraction⟩ := found
    cases hexponent : exponent? afterFraction with
    | none =>
      simp only [hfraction, hexponent] at h
      cases h
      exact ⟨_, _, _, hsign, hwhole, hfraction, nofun, hexponent,
        fun _ => rfl⟩
    | some found =>
      simp only [hfraction, hexponent] at h
      cases h
      exact ⟨_, _, _, hsign, hwhole, hfraction, nofun, hexponent, nofun⟩

private theorem lexeme?_behind {t : Text} {l : Lexeme} {rest : Text}
    (h : lexeme? t = some (l, rest)) : Behind rest t := by
  obtain ⟨body, afterWhole, afterFraction, hsign, hwhole, hfraction, hfraction', hexponent,
    hexponent'⟩ := lexeme?_parts h
  have hbody : body <:+ t := by
    rcases hsign with ⟨_, rfl⟩ | ⟨_, rfl⟩
    · exact List.suffix_cons _ _
    · exact List.suffix_rfl
  have hf : afterFraction <:+ afterWhole := by
    cases hl : l.fraction with
    | none => exact hfraction' hl ▸ List.suffix_rfl
    | some ds =>
      rw [hl] at hfraction
      exact fraction?_suffix hfraction
  have he : rest <:+ afterFraction := by
    cases hl : l.exponent with
    | none => exact hexponent' hl ▸ List.suffix_rfl
    | some e =>
      rw [hl] at hexponent
      exact exponent?_suffix hexponent
  exact ((whole?_behind hwhole).of_suffix hbody).after (he.trans hf)

theorem eq_append_of_after? {t word rest : Text} (h : t.after? word = some rest) :
    t = word ++ rest := by
  fun_induction Text.after? t word with
  | case1 t => exact Option.some.inj h
  | case2 => cases h
  | case3 cs c ps ih => exact congrArg (c :: ·) (ih h)
  | case4 => cases h

private theorem word?_behind {t : Text} {v : Json} {rest : Text} (h : word? t = some (v, rest)) :
    Behind rest t := by
  obtain ⟨⟨word, v'⟩, hmem, h⟩ := List.exists_of_findSome?_eq_some h
  obtain ⟨rest', hrest, h⟩ := Option.map_eq_some_iff.mp h
  cases h
  have hne : ∀ w ∈ words, w.1 ≠ [] := by decide
  obtain ⟨c, cs, rfl⟩ := List.exists_cons_of_ne_nil (hne _ hmem)
  rw [eq_append_of_after? hrest]
  exact .cons (List.suffix_append cs rest) c

private theorem atom_behind {t : Text} {v : Json} {rest : Text} (h : atom t = .ok (v, rest)) :
    Behind rest t := by
  rw [atom] at h
  split at h
  · rename_i hword
    cases h
    exact word?_behind hword
  · split at h
    · cases h
    · rename_i hlexeme
      split at h
      · cases h
        exact lexeme?_behind hlexeme
      · cases h

/-- The characters that open a string, an array or an object, or close an array, and the space. -/
def delimiters : Text := "\"[\x7b] \t\n\r"

theorem whole?_head {t ds rest : Text} (h : whole? t = some (ds, rest)) :
    ∃ c cs, t = c :: cs ∧ c ∉ delimiters := by
  have hdigit : ∀ d ∈ delimiters, ¬d.isDigit := by decide
  cases t with
  | nil => cases h
  | cons c cs =>
    refine ⟨c, cs, rfl, ?_⟩
    rw [whole?] at h
    split at h
    · rename_i hc
      rw [hc]
      decide
    · split at h
      · rename_i hc
        exact fun hmem => hdigit c hmem hc
      · cases h

theorem lexeme?_head {t rest : Text} {l : Lexeme} (h : lexeme? t = some (l, rest)) :
    ∃ c cs, t = c :: cs ∧ c ∉ delimiters := by
  obtain ⟨body, _, _, hsign, hwhole, _⟩ := lexeme?_parts h
  rcases hsign with ⟨_, rfl⟩ | ⟨_, rfl⟩
  · exact ⟨_, _, rfl, by decide⟩
  · exact whole?_head hwhole

private theorem word?_head {t rest : Text} {v : Json} (h : word? t = some (v, rest)) :
    ∃ c cs, t = c :: cs ∧ c ∉ delimiters := by
  obtain ⟨⟨word, v'⟩, hmem, h⟩ := List.exists_of_findSome?_eq_some h
  obtain ⟨rest', hrest, h⟩ := Option.map_eq_some_iff.mp h
  have hword : ∀ w ∈ words, ∀ c ∈ w.1.head?, c ∉ delimiters := by decide
  have hne : ∀ w ∈ words, w.1 ≠ [] := by decide
  cases word with
  | nil => exact absurd rfl (hne _ hmem)
  | cons w ws =>
    cases t with
    | nil => cases hrest
    | cons d ds =>
      rw [Text.after?] at hrest
      split at hrest
      · rename_i hd
        exact ⟨d, ds, rfl, hd ▸ hword _ hmem w rfl⟩
      · cases hrest

theorem atom_head {t rest : Text} {v : Json} (h : atom t = .ok (v, rest)) :
    ∃ c cs, t = c :: cs ∧ c ∉ delimiters := by
  rw [atom] at h
  split at h
  · rename_i hword
    cases h
    exact word?_head hword
  · split at h
    · cases h
    · rename_i hlexeme
      exact lexeme?_head hlexeme

/-- What is read: a value, the items of an array, or the members of an object after those before
them. -/
inductive Found where
  | value (v : Json)
  | items (vs : List Json)
  | members (before after : List (Text × Json))

/-- What stands at the beginning of a text, and the rest behind it. -/
inductive Reads : Text → Found → Text → Prop
  | string {cs s rest : Text} :
      string cs = .ok (s, rest) → Reads (CodePoint.ofChar '"' :: cs) (.value (.text s)) rest
  | emptyArray {cs rest : Text} :
      skipSpace cs = CodePoint.ofChar ']' :: rest →
      Reads (CodePoint.ofChar '[' :: cs) (.value (.array [])) rest
  | array {cs rest : Text} {vs : List Json} :
      Reads (skipSpace cs) (.items vs) rest →
      Reads (CodePoint.ofChar '[' :: cs) (.value (.array vs)) rest
  | emptyObject {cs rest : Text} :
      skipSpace cs = CodePoint.ofChar '}' :: rest →
      Reads (CodePoint.ofChar '{' :: cs) (.value (.object [])) rest
  | object {cs rest : Text} {ms : List (Text × Json)} :
      Reads (skipSpace cs) (.members [] ms) rest →
      Reads (CodePoint.ofChar '{' :: cs) (.value (.object ms)) rest
  | atom {t rest : Text} {v : Json} : atom t = .ok (v, rest) → Reads t (.value v) rest
  | lastItem {t rest cs : Text} {v : Json} :
      Reads t (.value v) rest → skipSpace rest = CodePoint.ofChar ']' :: cs →
      Reads t (.items [v]) cs
  | item {t rest cs rest' : Text} {v : Json} {vs : List Json} :
      Reads t (.value v) rest → skipSpace rest = CodePoint.ofChar ',' :: cs →
      Reads (skipSpace cs) (.items vs) rest' → Reads t (.items (v :: vs)) rest'
  | lastMember {qs key rest cs rest' ds : Text} {v : Json} {before : List (Text × Json)} :
      string qs = .ok (key, rest) → skipSpace rest = CodePoint.ofChar ':' :: cs →
      Reads (skipSpace cs) (.value v) rest' → skipSpace rest' = CodePoint.ofChar '}' :: ds →
      Reads (CodePoint.ofChar '"' :: qs) (.members before (Entries.insert key v before)) ds
  | member {qs key rest cs rest' ds rest'' : Text} {v : Json} {before after : List (Text × Json)} :
      string qs = .ok (key, rest) → skipSpace rest = CodePoint.ofChar ':' :: cs →
      Reads (skipSpace cs) (.value v) rest' → skipSpace rest' = CodePoint.ofChar ',' :: ds →
      Reads (skipSpace ds) (.members (Entries.insert key v before) after) rest'' →
      Reads (CodePoint.ofChar '"' :: qs) (.members before after) rest''

private theorem behind_of_skipSpace {t cs : Text} {c : CodePoint} (h : skipSpace t = c :: cs) :
    Behind cs t :=
  (Behind.cons List.suffix_rfl c).of_suffix (h ▸ skipSpace_suffix t)

theorem skipSpace_behind {t cs : Text} {c : CodePoint} (h : skipSpace t = c :: cs) :
    Behind (skipSpace cs) t :=
  (behind_of_skipSpace h).after (skipSpace_suffix cs)

/-- Something is always taken from the text. -/
theorem Reads.behind {t rest : Text} {g : Found} (h : Reads t g rest) : Behind rest t := by
  induction h with
  | string hs => exact .cons (string_behind hs).suffix _
  | emptyArray hs => exact .cons (behind_of_skipSpace hs).suffix _
  | @array cs rest _ _ ih => exact .cons (ih.suffix.trans (skipSpace_suffix cs)) _
  | emptyObject hs => exact .cons (behind_of_skipSpace hs).suffix _
  | @object cs rest _ _ ih => exact .cons (ih.suffix.trans (skipSpace_suffix cs)) _
  | atom ha => exact atom_behind ha
  | lastItem _ hs ih => exact ih.after (behind_of_skipSpace hs).suffix
  | item _ hs _ ih ih' => exact ih.after (ih'.suffix.trans (skipSpace_behind hs).suffix)
  | lastMember hk hc _ hd ih =>
    have hvalue := ih.suffix.trans (skipSpace_behind hc).suffix
    have hclose := (behind_of_skipSpace hd).suffix.trans hvalue
    exact .cons (hclose.trans (string_behind hk).suffix) _
  | member hk hc _ hd _ ih ih' =>
    have hvalue := ih.suffix.trans (skipSpace_behind hc).suffix
    have hlater := ih'.suffix.trans ((skipSpace_behind hd).suffix.trans hvalue)
    exact .cons (hlater.trans (string_behind hk).suffix) _

/-- The reader with the given fuel finds it. -/
def Found.By (fuel : Nat) (t rest : Text) : Found → Prop
  | .value v => Json.value fuel t = .ok (v, rest)
  | .items vs => Json.items fuel t = .ok (vs, rest)
  | .members before after => Json.members fuel before t = .ok (after, rest)

/-- The ways in which a value is read with one unit of fuel more. -/
inductive ValueStep (fuel : Nat) : Text → Except Stop (Json × Text) → Prop
  | syntactic {t : Text} (complaint : Complaint) (left : Nat) :
      ValueStep fuel t (.error (.syntactic complaint left))
  | string {cs s rest : Text} :
      string cs = .ok (s, rest) → ValueStep fuel (CodePoint.ofChar '"' :: cs) (.ok (.text s, rest))
  | badString {cs : Text} {e : Stop} :
      Json.string cs = .error e → ValueStep fuel (CodePoint.ofChar '"' :: cs) (.error e)
  | emptyArray {cs rest : Text} :
      skipSpace cs = CodePoint.ofChar ']' :: rest →
      ValueStep fuel (CodePoint.ofChar '[' :: cs) (.ok (.array [], rest))
  | array {cs rest : Text} {vs : List Json} :
      items fuel (skipSpace cs) = .ok (vs, rest) →
      ValueStep fuel (CodePoint.ofChar '[' :: cs) (.ok (.array vs, rest))
  | badArray {cs : Text} {e : Stop} :
      items fuel (skipSpace cs) = .error e →
      ValueStep fuel (CodePoint.ofChar '[' :: cs) (.error e)
  | emptyObject {cs rest : Text} :
      skipSpace cs = CodePoint.ofChar '}' :: rest →
      ValueStep fuel (CodePoint.ofChar '{' :: cs) (.ok (.object [], rest))
  | object {cs rest : Text} {ms : List (Text × Json)} :
      members fuel [] (skipSpace cs) = .ok (ms, rest) →
      ValueStep fuel (CodePoint.ofChar '{' :: cs) (.ok (.object ms, rest))
  | badObject {cs : Text} {e : Stop} :
      members fuel [] (skipSpace cs) = .error e →
      ValueStep fuel (CodePoint.ofChar '{' :: cs) (.error e)
  | atom {t : Text} {r : Except Stop (Json × Text)} : atom t = r → ValueStep fuel t r

private theorem array_step {fuel : Nat} {cs ts : Text} (h : skipSpace cs = ts) :
    ValueStep fuel (CodePoint.ofChar '[' :: cs) (do
      let (vs, rest) ← items fuel ts
      return (.array vs, rest)) := by
  cases hitems : items fuel ts with
  | ok found => exact .array (h ▸ hitems)
  | error e => exact .badArray (h ▸ hitems)

private theorem object_step {fuel : Nat} {cs ts : Text} (h : skipSpace cs = ts) :
    ValueStep fuel (CodePoint.ofChar '{' :: cs) (do
      let (ms, rest) ← members fuel [] ts
      return (.object ms, rest)) := by
  cases hmembers : members fuel [] ts with
  | ok found => exact .object (h ▸ hmembers)
  | error e => exact .badObject (h ▸ hmembers)

theorem value_inversion (fuel : Nat) (t : Text) : ValueStep fuel t (value (fuel + 1) t) := by
  cases t with
  | nil => exact .syntactic _ _
  | cons c cs =>
    rw [value]
    split
    · rename_i hc
      subst hc
      cases hs : Json.string cs with
      | ok found => exact .string hs
      | error e => exact .badString hs
    · split
      · rename_i hc
        subst hc
        split
        · rename_i d ds hspace
          split
          · rename_i hd
            exact .emptyArray (hd ▸ hspace)
          · exact array_step hspace
        · exact array_step (by assumption)
      · split
        · rename_i hc
          subst hc
          split
          · rename_i d ds hspace
            split
            · rename_i hd
              exact .emptyObject (hd ▸ hspace)
            · exact object_step hspace
          · exact object_step (by assumption)
        · exact .atom rfl

/-- The ways in which the items of an array are read. -/
inductive ItemsStep (fuel : Nat) (t : Text) : Except Stop (List Json × Text) → Prop
  | syntactic (complaint : Complaint) (left : Nat) :
      ItemsStep fuel t (.error (.syntactic complaint left))
  | badItem {e : Stop} : value fuel t = .error e → ItemsStep fuel t (.error e)
  | last {rest cs : Text} {v : Json} :
      value fuel t = .ok (v, rest) → skipSpace rest = CodePoint.ofChar ']' :: cs →
      ItemsStep fuel t (.ok ([v], cs))
  | more {rest cs rest' : Text} {v : Json} {vs : List Json} :
      value fuel t = .ok (v, rest) → skipSpace rest = CodePoint.ofChar ',' :: cs →
      items fuel (skipSpace cs) = .ok (vs, rest') → ItemsStep fuel t (.ok (v :: vs, rest'))
  | badLater {rest cs : Text} {v : Json} {e : Stop} :
      value fuel t = .ok (v, rest) → skipSpace rest = CodePoint.ofChar ',' :: cs →
      items fuel (skipSpace cs) = .error e → ItemsStep fuel t (.error e)

theorem items_inversion (fuel : Nat) (t : Text) : ItemsStep fuel t (items (fuel + 1) t) := by
  rw [items]
  cases hvalue : value fuel t with
  | error e => exact .badItem hvalue
  | ok found =>
    obtain ⟨v, rest⟩ := found
    rw [ok_bind]
    dsimp only
    split
    · rename_i c cs hspace
      split
      · rename_i hc
        exact .last hvalue (hc ▸ hspace)
      · split
        · rename_i hc
          subst hc
          cases hitems : items fuel (skipSpace cs) with
          | ok later => exact .more hvalue hspace hitems
          | error e => exact .badLater hvalue hspace hitems
        · exact .syntactic _ _
    · exact .syntactic _ _

/-- The ways in which the members of an object are read. -/
inductive MembersStep (fuel : Nat) (before : List (Text × Json)) :
    Text → Except Stop (List (Text × Json) × Text) → Prop
  | syntactic {t : Text} (complaint : Complaint) (left : Nat) :
      MembersStep fuel before t (.error (.syntactic complaint left))
  | badKey {qs : Text} {e : Stop} :
      string qs = .error e → MembersStep fuel before (CodePoint.ofChar '"' :: qs) (.error e)
  | badValue {qs key rest cs : Text} {e : Stop} :
      string qs = .ok (key, rest) → skipSpace rest = CodePoint.ofChar ':' :: cs →
      value fuel (skipSpace cs) = .error e →
      MembersStep fuel before (CodePoint.ofChar '"' :: qs) (.error e)
  | last {qs key rest cs rest' ds : Text} {v : Json} :
      string qs = .ok (key, rest) → skipSpace rest = CodePoint.ofChar ':' :: cs →
      value fuel (skipSpace cs) = .ok (v, rest') → skipSpace rest' = CodePoint.ofChar '}' :: ds →
      MembersStep fuel before (CodePoint.ofChar '"' :: qs) (.ok (Entries.insert key v before, ds))
  | more {qs key rest cs rest' ds : Text} {v : Json}
      {r : Except Stop (List (Text × Json) × Text)} :
      string qs = .ok (key, rest) → skipSpace rest = CodePoint.ofChar ':' :: cs →
      value fuel (skipSpace cs) = .ok (v, rest') → skipSpace rest' = CodePoint.ofChar ',' :: ds →
      members fuel (Entries.insert key v before) (skipSpace ds) = r →
      MembersStep fuel before (CodePoint.ofChar '"' :: qs) r

theorem members_inversion (fuel : Nat) (before : List (Text × Json)) (t : Text) :
    MembersStep fuel before t (members (fuel + 1) before t) := by
  cases t with
  | nil => exact .syntactic _ _
  | cons q qs =>
    rw [members]
    split
    · rename_i hq
      subst hq
      cases hkey : string qs with
      | error e => exact .badKey hkey
      | ok name =>
        obtain ⟨key, rest⟩ := name
        rw [ok_bind]
        dsimp only
        split
        · rename_i c cs hspace
          split
          · rename_i hc
            subst hc
            cases hvalue : value fuel (skipSpace cs) with
            | error e => exact .badValue hkey hspace hvalue
            | ok found =>
              obtain ⟨v, rest'⟩ := found
              rw [ok_bind]
              dsimp only
              split
              · rename_i d ds hspace'
                split
                · rename_i hd
                  exact .last hkey hspace hvalue (hd ▸ hspace')
                · split
                  · rename_i hd
                    exact .more hkey hspace hvalue (hd ▸ hspace') rfl
                  · exact .syntactic _ _
              · exact .syntactic _ _
          · exact .syntactic _ _
        · exact .syntactic _ _
    · exact .syntactic _ _

/-- Whatever the fuel, what the reader finds is there. -/
theorem reads_of_found {fuel : Nat} {t rest : Text} {g : Found} (h : g.By fuel t rest) :
    Reads t g rest := by
  induction fuel generalizing t rest g with
  | zero => cases g <;> cases h
  | succ fuel ih =>
    cases g with
    | value v =>
      have hstep := value_inversion fuel t
      rw [show value (fuel + 1) t = .ok (v, rest) from h] at hstep
      cases hstep with
      | string hs => exact .string hs
      | emptyArray hspace => exact .emptyArray hspace
      | @array _ _ vs hitems => exact .array (ih (g := .items vs) hitems)
      | emptyObject hspace => exact .emptyObject hspace
      | @object _ _ ms hmembers => exact .object (ih (g := .members [] ms) hmembers)
      | atom hatom => exact .atom hatom
    | items vs =>
      have hstep := items_inversion fuel t
      rw [show items (fuel + 1) t = .ok (vs, rest) from h] at hstep
      cases hstep with
      | @last _ _ v hv hspace => exact .lastItem (ih (g := .value v) hv) hspace
      | @more _ _ _ v vs hv hspace hitems =>
        exact .item (ih (g := .value v) hv) hspace (ih (g := .items vs) hitems)
    | members before after =>
      have hstep := members_inversion fuel before t
      rw [show members (fuel + 1) before t = .ok (after, rest) from h] at hstep
      cases hstep with
      | @last _ _ _ _ _ _ v hkey hcolon hv hclose =>
        exact .lastMember hkey hcolon (ih (g := .value v) hv) hclose
      | @more _ _ _ _ _ _ v _ hkey hcolon hv hcomma hmembers =>
        exact .member hkey hcolon (ih (g := .value v) hv) hcomma
          (ih (g := .members _ after) hmembers)

theorem Reads.head_ne_bracket {t rest : Text} {g : Found} (h : Reads t g rest) :
    t.head? ≠ some (CodePoint.ofChar ']') := by
  induction h with
  | string | emptyArray | array | emptyObject | object | lastMember | member =>
    exact fun h => absurd (Option.some.inj h) (by decide)
  | atom ha =>
    obtain ⟨c, cs, rfl, hmem⟩ := atom_head ha
    intro hc
    exact hmem (Option.some.inj hc ▸ by decide)
  | lastItem _ _ ih => exact ih
  | item _ _ _ ih => exact ih

private theorem Reads.members_head {t rest : Text} {before after : List (Text × Json)}
    (h : Reads t (.members before after) rest) : ∃ qs, t = CodePoint.ofChar '"' :: qs := by
  cases h with
  | lastMember => exact ⟨_, rfl⟩
  | member => exact ⟨_, rfl⟩

theorem value_array_step {cs : Text} (fuel : Nat)
    (h : (skipSpace cs).head? ≠ some (CodePoint.ofChar ']')) :
    value (fuel + 1) (CodePoint.ofChar '[' :: cs) =
      (items fuel (skipSpace cs)).map fun found => (.array found.1, found.2) := by
  have hquote : CodePoint.ofChar '[' ≠ CodePoint.ofChar '"' := by decide
  simp only [value, if_neg hquote, if_true]
  cases hspace : skipSpace cs with
  | nil => rfl
  | cons d ds =>
    rw [hspace] at h
    have hd : d ≠ CodePoint.ofChar ']' := fun hd => h (congrArg some hd)
    simp only [if_neg hd]
    rfl

theorem value_object_step {cs qs : Text} (fuel : Nat)
    (h : skipSpace cs = CodePoint.ofChar '"' :: qs) :
    value (fuel + 1) (CodePoint.ofChar '{' :: cs) =
      (members fuel [] (skipSpace cs)).map fun found => (.object found.1, found.2) := by
  have hquote : CodePoint.ofChar '{' ≠ CodePoint.ofChar '"' := by decide
  have hbracket : CodePoint.ofChar '{' ≠ CodePoint.ofChar '[' := by decide
  have hclose : CodePoint.ofChar '"' ≠ CodePoint.ofChar '}' := by decide
  simp only [value, if_neg hquote, if_neg hbracket, if_true, h, if_neg hclose]
  rfl

theorem value_atom_step {c : CodePoint} (cs : Text) (fuel : Nat) (h : c ∉ delimiters) :
    value (fuel + 1) (c :: cs) = atom (c :: cs) := by
  have hquote : c ≠ CodePoint.ofChar '"' := fun hc => h (hc ▸ by decide)
  have hbracket : c ≠ CodePoint.ofChar '[' := fun hc => h (hc ▸ by decide)
  have hbrace : c ≠ CodePoint.ofChar '{' := fun hc => h (hc ▸ by decide)
  simp only [value, if_neg hquote, if_neg hbracket, if_neg hbrace]

private theorem items_last {fuel : Nat} {t rest cs : Text} {v : Json}
    (hv : value fuel t = .ok (v, rest)) (hs : skipSpace rest = CodePoint.ofChar ']' :: cs) :
    items (fuel + 1) t = .ok ([v], cs) := by
  simp only [items, hv, ok_bind, hs, if_true]
  rfl

theorem items_step {fuel : Nat} {t rest cs : Text} {v : Json}
    (hv : value fuel t = .ok (v, rest)) (hs : skipSpace rest = CodePoint.ofChar ',' :: cs) :
    items (fuel + 1) t =
      (items fuel (skipSpace cs)).map fun found => (v :: found.1, found.2) := by
  have hclose : CodePoint.ofChar ',' ≠ CodePoint.ofChar ']' := by decide
  simp only [items, hv, ok_bind, hs, if_neg hclose, if_true]
  rfl

private theorem members_last {fuel : Nat} {qs key rest cs rest' ds : Text} {v : Json}
    (before : List (Text × Json)) (hk : string qs = .ok (key, rest))
    (hc : skipSpace rest = CodePoint.ofChar ':' :: cs)
    (hv : value fuel (skipSpace cs) = .ok (v, rest'))
    (hd : skipSpace rest' = CodePoint.ofChar '}' :: ds) :
    members (fuel + 1) before (CodePoint.ofChar '"' :: qs) =
      .ok (Entries.insert key v before, ds) := by
  simp only [members, if_true, hk, ok_bind, hc, hv, hd]
  rfl

theorem members_step {fuel : Nat} {qs key rest cs rest' ds : Text} {v : Json}
    (before : List (Text × Json)) (hk : string qs = .ok (key, rest))
    (hc : skipSpace rest = CodePoint.ofChar ':' :: cs)
    (hv : value fuel (skipSpace cs) = .ok (v, rest'))
    (hd : skipSpace rest' = CodePoint.ofChar ',' :: ds) :
    members (fuel + 1) before (CodePoint.ofChar '"' :: qs) =
      members fuel (Entries.insert key v before) (skipSpace ds) := by
  have hclose : CodePoint.ofChar ',' ≠ CodePoint.ofChar '}' := by decide
  simp only [members, if_true, hk, ok_bind, hc, hv, hd, if_neg hclose]

inductive Part where
  | value
  | items
  | members

/-- Fuel that is enough to read a part of a text of the given length. -/
def Part.fuel (length : Nat) : Part → Nat
  | .value => 2 * length + 1
  | .items => 2 * length + 2
  | .members => 2 * length + 2

theorem Part.fuel_pos (length : Nat) (p : Part) : 0 < p.fuel length := by
  cases p <;> exact Nat.succ_pos _

def Found.part : Found → Part
  | .value _ => .value
  | .items _ => .items
  | .members _ _ => .members

/-- With enough fuel the reader finds what is there. -/
theorem found_of_reads {t rest : Text} {g : Found} (h : Reads t g rest) {fuel : Nat}
    (hfuel : g.part.fuel t.length ≤ fuel) : g.By fuel t rest := by
  obtain ⟨fuel, rfl⟩ := Nat.exists_eq_add_one.mpr (Nat.lt_of_lt_of_le (Part.fuel_pos _ _) hfuel)
  -- An inner reader has one unit of fuel less and at least one code point less to read, or is the
  -- next in the order value, items, members at the same place.
  induction h generalizing fuel with
  | string hs =>
    simp only [Found.By, value, if_true, hs]
    rfl
  | emptyArray hs =>
    have hquote : CodePoint.ofChar '[' ≠ CodePoint.ofChar '"' := by decide
    simp only [Found.By, value, if_neg hquote, if_true, hs]
  | emptyObject hs =>
    have hquote : CodePoint.ofChar '{' ≠ CodePoint.ofChar '"' := by decide
    have hbracket : CodePoint.ofChar '{' ≠ CodePoint.ofChar '[' := by decide
    simp only [Found.By, value, if_neg hquote, if_neg hbracket, if_true, hs]
  | atom ha =>
    obtain ⟨c, cs, rfl, hc⟩ := atom_head ha
    rw [Found.By, value_atom_step cs fuel hc, ha]
  | @array cs rest vs hvs ih =>
    have hlen := (skipSpace_suffix cs).length_le
    simp only [Found.part, Part.fuel, List.length_cons] at hfuel ih
    obtain ⟨fuel, rfl⟩ := Nat.exists_eq_add_one.mpr (by omega : 0 < fuel)
    have hitems : items (fuel + 1) (skipSpace cs) = .ok (vs, rest) := ih fuel (by omega)
    rw [Found.By, value_array_step _ hvs.head_ne_bracket, hitems]
    rfl
  | @object cs rest ms hms ih =>
    have hlen := (skipSpace_suffix cs).length_le
    obtain ⟨qs, hqs⟩ := hms.members_head
    simp only [Found.part, Part.fuel, List.length_cons] at hfuel ih
    obtain ⟨fuel, rfl⟩ := Nat.exists_eq_add_one.mpr (by omega : 0 < fuel)
    have hmembers : members (fuel + 1) [] (skipSpace cs) = .ok (ms, rest) := ih fuel (by omega)
    rw [Found.By, value_object_step _ hqs, hmembers]
    rfl
  | @lastItem t rest cs v hv hs ih =>
    simp only [Found.part, Part.fuel] at hfuel ih
    obtain ⟨fuel, rfl⟩ := Nat.exists_eq_add_one.mpr (by omega : 0 < fuel)
    exact items_last (ih fuel (by omega)) hs
  | @item t rest cs rest' v vs hv hs hvs ih ih' =>
    have hlen := hv.behind.length_lt
    have hlen' := (skipSpace_behind hs).length_lt
    simp only [Found.part, Part.fuel] at hfuel ih ih'
    obtain ⟨fuel, rfl⟩ := Nat.exists_eq_add_one.mpr (by omega : 0 < fuel)
    have hitems : items (fuel + 1) (skipSpace cs) = .ok (vs, rest') := ih' fuel (by omega)
    rw [Found.By, items_step (ih fuel (by omega)) hs, hitems]
    rfl
  | @lastMember qs key rest cs rest' ds v before hk hc hv hd ih =>
    have hlen := (string_behind hk).length_lt
    have hlen' := (skipSpace_behind hc).length_lt
    simp only [Found.part, Part.fuel, List.length_cons] at hfuel ih
    obtain ⟨fuel, rfl⟩ := Nat.exists_eq_add_one.mpr (by omega : 0 < fuel)
    exact members_last before hk hc (ih fuel (by omega)) hd
  | @member qs key rest cs rest' ds rest'' v before after hk hc hv hd hms ih ih' =>
    have hlen := (string_behind hk).length_lt
    have hlen' := (skipSpace_behind hc).length_lt
    have hvlen := hv.behind.length_lt
    have hdlen := (skipSpace_behind hd).length_lt
    simp only [Found.part, Part.fuel, List.length_cons] at hfuel ih ih'
    obtain ⟨fuel, rfl⟩ := Nat.exists_eq_add_one.mpr (by omega : 0 < fuel)
    have hmembers : members (fuel + 1) (Entries.insert key v before) (skipSpace ds) =
        .ok (after, rest'') := ih' fuel (by omega)
    rw [Found.By, members_step before hk hc (ih fuel (by omega)) hd, hmembers]

/-- A document from its value on: only space may follow. -/
def finish (found : Json × Text) : Except Stop Json :=
  match skipSpace found.2 with
  | [] => .ok found.1
  | extra => stopAt .extraData extra

theorem document_eq (t : Text) :
    document t =
      if t.head?.map CodePoint.val = some 0xfeff then stopAt .byteOrderMark t
      else value (2 * t.length + 2) (skipSpace t) >>= finish := by
  cases t with
  | nil => rfl
  | cons c cs =>
    simp only [document, List.head?_cons, Option.map_some, Option.some.injEq]
    split
    · rfl
    · rfl

theorem finish_eq_ok_iff {found : Json × Text} {v : Json} :
    finish found = .ok v ↔ skipSpace found.2 = [] ∧ found.1 = v := by
  rw [finish]
  split
  · rename_i hspace
    simp [hspace]
  · rename_i hspace
    constructor
    · intro h
      cases h
    · intro h
      exact absurd h.1 hspace

/-- A whole text is read as the value behind its leading space, if nothing but space follows and no
byte order mark is before it. -/
theorem read_eq_ok_iff {t : Text} {v : Json} :
    read t = .ok v ↔ t.head?.map CodePoint.val ≠ some 0xfeff ∧
      ∃ rest, Reads (skipSpace t) (.value v) rest ∧ skipSpace rest = [] := by
  have hread : read t = .ok v ↔ document t = .ok v := by
    rw [read]
    split <;> simp_all
  rw [hread, document_eq]
  constructor
  · intro h
    split at h
    · cases h
    · rename_i hmark
      obtain ⟨⟨v', rest⟩, hvalue, hfinish⟩ := bind_eq_ok.mp h
      obtain ⟨hspace, rfl⟩ := finish_eq_ok_iff.mp hfinish
      exact ⟨hmark, rest, reads_of_found (g := .value v') hvalue, hspace⟩
  · rintro ⟨hmark, rest, hreads, hspace⟩
    have hlen := (skipSpace_suffix t).length_le
    have hvalue : value (2 * t.length + 2) (skipSpace t) = .ok (v, rest) :=
      found_of_reads hreads (by simp only [Found.part, Part.fuel]; omega)
    rw [if_neg hmark, hvalue, ok_bind]
    exact finish_eq_ok_iff.mpr ⟨hspace, rfl⟩

theorem reads_of_read {t : Text} {v : Json} (h : read t = .ok v) :
    ∃ rest, Reads (skipSpace t) (.value v) rest := by
  obtain ⟨-, rest, hreads, -⟩ := read_eq_ok_iff.mp h
  exact ⟨rest, hreads⟩

end Json

end RubyLanguageServer
