import Mathlib.Data.List.Nodup
import RubyLanguageServer.Proofs.JsonNumbers
import RubyLanguageServer.Proofs.JsonStrings
import RubyLanguageServer.Text.Utf8
/-!
# Printed values, read again

Every printed value can be read, and `reread` says what is read: strings with their surrogates
joined, the last of the members with one name, floating point numbers as their digits spell them. A
value that was itself decoded from UTF-8 and has no floating point number is read as it was.
-/
namespace RubyLanguageServer

namespace Entries

variable {α : Type}

/-- Entries with more set in them, one after another. -/
def insertAll (es : Entries α) (pairs : List (Text × α)) : Entries α :=
  pairs.foldl (fun es e => insert e.1 e.2 es) es

theorem insert_of_not_mem {key : Text} {v : α} {es : Entries α} (h : key ∉ es.map Prod.fst) :
    insert key v es = es ++ [(key, v)] := by
  induction es with
  | nil => rfl
  | cons e es ih =>
    rw [List.map_cons, List.mem_cons, not_or] at h
    rw [insert, if_neg (Ne.symm h.1), ih h.2]
    rfl

private theorem insertAll_of_nodup {es : Entries α} {pairs : List (Text × α)}
    (h : ((es ++ pairs).map Prod.fst).Nodup) : insertAll es pairs = es ++ pairs := by
  induction pairs generalizing es with
  | nil => exact (List.append_nil es).symm
  | cons e pairs ih =>
    have hnew : e.1 ∉ es.map Prod.fst := by
      rw [List.map_append, List.nodup_append] at h
      exact fun hmem => h.2.2 e.1 hmem e.1 (by simp) rfl
    have happend : es ++ e :: pairs = es ++ [e] ++ pairs := by simp
    show insertAll (insert e.1 e.2 es) pairs = _
    rw [insert_of_not_mem hnew, happend]
    exact ih (happend ▸ h)

end Entries

namespace Json

mutual

/-- What is read where a value was printed. -/
def reread : Json → Json
  | .float x => .float x.reread
  | .text t => .text t.joinPairs
  | .array vs => .array (rereadItems vs)
  | .object ms => .object (Entries.insertAll [] (rereadMembers ms))
  | v => v

def rereadItems : List Json → List Json
  | [] => []
  | v :: vs => reread v :: rereadItems vs

def rereadMembers : List (Text × Json) → List (Text × Json)
  | [] => []
  | (key, v) :: ms => (key.joinPairs, reread v) :: rereadMembers ms

end

private theorem mem_delimiters_of_isSpace {c : CodePoint} (h : isSpace c = true) : c ∈ delimiters :=
    by
  simp only [isSpace, Bool.or_eq_true, beq_iff_eq] at h
  rcases h with ((h | h) | h) | h
  · exact CodePoint.ext (d := CodePoint.ofChar ' ') h ▸ by decide
  · exact CodePoint.ext (d := CodePoint.ofChar '\t') h ▸ by decide
  · exact CodePoint.ext (d := CodePoint.ofChar '\n') h ▸ by decide
  · exact CodePoint.ext (d := CodePoint.ofChar '\r') h ▸ by decide

theorem Reads.skipSpace_eq {t rest : Text} {g : Found} (h : Reads t g rest) : skipSpace t = t := by
  induction h with
  | string => rfl
  | emptyArray => rfl
  | array => rfl
  | emptyObject => rfl
  | object => rfl
  | atom ha =>
    obtain ⟨c, cs, rfl, hc⟩ := atom_head ha
    exact List.dropWhile_cons_of_neg fun hspace => hc (mem_delimiters_of_isSpace hspace)
  | lastItem _ _ ih => exact ih
  | item _ _ _ ih _ => exact ih
  | lastMember => rfl
  | member => rfl

private theorem printString_append (key rest : Text) :
    printString key ++ rest =
      CodePoint.ofChar '"' :: (key.flatMap escape ++ CodePoint.ofChar '"' :: rest) := by
  simp only [printString, List.append_assoc]
  rfl

theorem Reads.of_space {t rest : Text} {g : Found} (h : Reads t g rest) :
    Reads (skipSpace (CodePoint.ofChar ' ' :: t)) g rest := by
  have hskip : skipSpace (CodePoint.ofChar ' ' :: t) = t := h.skipSpace_eq
  rwa [hskip]

private theorem rereadItems_eq_map (vs : List Json) : rereadItems vs = vs.map reread := by
  induction vs with
  | nil => rfl
  | cons v vs ih => rw [rereadItems, ih, List.map_cons]

private theorem rereadMembers_eq_map (ms : List (Text × Json)) :
    rereadMembers ms = ms.map fun m => (m.1.joinPairs, m.2.reread) := by
  induction ms with
  | nil => rfl
  | cons m ms ih => rw [rereadMembers, ih, List.map_cons]

/-- The text is read as the value was printed, up to its end. -/
def ReadFrom (v : Json) (p : Text) : Prop :=
  ∀ rest : Text, Ends rest → Reads (p ++ rest) (.value v.reread) rest

private theorem ends_comma (t : Text) : Ends (CodePoint.ofChar ',' :: t) := by
  rintro _ ⟨⟩
  exact .inl rfl

private theorem reads_items {vs : List Json} {parts : List Text}
    (h : List.Forall₂ ReadFrom vs parts) (hne : vs ≠ []) (rest : Text) :
    Reads (Text.joinWith ", " parts ++ CodePoint.ofChar ']' :: rest)
      (.items (vs.map reread)) rest := by
  have hclose : Ends (CodePoint.ofChar ']' :: rest) := by
    rintro _ ⟨⟩
    exact .inr (.inl rfl)
  induction h with
  | nil => exact absurd rfl hne
  | cons hv hvs ih =>
    cases hvs with
    | nil => exact .lastItem (hv _ hclose) rfl
    | cons =>
      have hlater := ih (List.cons_ne_nil _ _)
      rw [Text.joinWith, List.append_assoc, List.append_assoc]
      exact .item (hv _ (ends_comma _)) rfl hlater.of_space

private theorem reads_members {ms : List (Text × Json)} {parts : List Text}
    (h : List.Forall₂ (fun m part => ∃ value, ReadFrom m.2 value ∧ printMember m.1 value = part)
      ms parts) (hne : ms ≠ []) (before : List (Text × Json)) (rest : Text) :
    Reads (Text.joinWith ", " parts ++ CodePoint.ofChar '}' :: rest)
      (.members before (Entries.insertAll before
        (ms.map fun m => (m.1.joinPairs, m.2.reread)))) rest := by
  have hclose : Ends (CodePoint.ofChar '}' :: rest) := by
    rintro _ ⟨⟩
    exact .inr (.inr rfl)
  -- Members are read into those before them, so the induction is for all of these.
  induction h generalizing before with
  | nil => exact absurd rfl hne
  | @cons m _ _ _ hm hms ih =>
    obtain ⟨value, hvalue, rfl⟩ := hm
    cases hms with
    | nil =>
      rw [Text.joinWith, printMember, List.append_assoc, List.append_assoc, printString_append]
      exact .lastMember (string_flatMap_escape _ _) rfl (hvalue _ hclose).of_space rfl
    | cons =>
      have hlater := ih (List.cons_ne_nil _ _)
        (Entries.insert m.1.joinPairs m.2.reread before)
      rw [Text.joinWith, printMember]
      simp only [List.append_assoc]
      rw [printString_append]
      exact .member (string_flatMap_escape _ _) rfl (hvalue _ (ends_comma _)).of_space rfl
        hlater.of_space

theorem readFrom_print (v : Json) : ∀ {p : Text}, v.print = .ok p → v.ReadFrom p := by
  induction v using nested with
  | null =>
    rintro p ⟨⟩ rest hrest
    exact .atom (atom_of_word (List.mem_of_getElem? (i := 0) rfl) rest)
  | bool b =>
    rintro p ⟨⟩ rest hrest
    cases b with
    | true => exact .atom (atom_of_word (List.mem_of_getElem? (i := 1) rfl) rest)
    | false => exact .atom (atom_of_word (List.mem_of_getElem? (i := 2) rfl) rest)
  | int n =>
    intro p h rest hrest
    rw [print, Numeral.write] at h
    split at h
    · rename_i hlength
      cases h
      exact .atom (atom_ofInt hlength hrest)
    · cases h
  | float x =>
    rintro p ⟨⟩ rest hrest
    exact .atom (x.atom_toText hrest)
  | text t =>
    rintro p ⟨⟩ rest hrest
    rw [printString_append]
    exact .string (string_flatMap_escape t rest)
  | array vs ih =>
    intro p h rest hrest
    obtain ⟨parts, hparts, rfl⟩ := print_array_iff.mp h
    have hread := forall₂_imp_left hparts fun v hv part hpart => ih v hv hpart
    cases vs with
    | nil =>
      cases hparts
      exact .emptyArray rfl
    | cons v vs =>
      have hitems := reads_items hread (List.cons_ne_nil v vs) rest
      rw [← hitems.skipSpace_eq] at hitems
      rw [reread, rereadItems_eq_map, enclose, List.append_assoc, List.append_assoc]
      exact .array hitems
  | object ms ih =>
    intro p h rest hrest
    obtain ⟨parts, hparts, rfl⟩ := print_object_iff.mp h
    have hread : List.Forall₂ (fun m part => ∃ value, ReadFrom m.2 value ∧
        printMember m.1 value = part) ms parts :=
      forall₂_imp_left hparts fun m hm part hpart =>
        hpart.imp fun value hvalue => ⟨ih m hm hvalue.1, hvalue.2⟩
    cases ms with
    | nil =>
      cases hparts
      exact .emptyObject rfl
    | cons m ms =>
      have hmembers := reads_members hread (List.cons_ne_nil m ms) [] rest
      rw [← hmembers.skipSpace_eq] at hmembers
      rw [reread, rereadMembers_eq_map, enclose, List.append_assoc, List.append_assoc]
      exact .object hmembers

private theorem visible_enclose {opening closing : Text} (hopening : opening.Visible)
    (hclosing : closing.Visible) {parts : List Text} (h : ∀ part ∈ parts, part.Visible) :
    (enclose opening closing parts).Visible := by
  have hcomma : Text.Visible ", " := by decide
  have hparts : (Text.joinWith ", " parts).Visible := by
    fun_induction Text.joinWith ", " parts with
    | case1 => exact nofun
    | case2 t => exact h t (List.mem_singleton_self t)
    | case3 t u ts ih =>
      obtain ⟨ht, hts⟩ := List.forall_mem_cons.mp h
      exact (ht.append hcomma).append (ih hts)
  exact (hopening.append hparts).append hclosing

theorem visible_print (v : Json) : ∀ {p : Text}, v.print = .ok p → p.Visible := by
  induction v using nested with
  | null =>
    rintro p ⟨⟩
    decide
  | bool b =>
    rintro p ⟨⟩
    cases b <;> decide
  | int n =>
    intro p h
    rw [print, Numeral.write] at h
    split at h
    · cases h
      exact visible_ofInt n
    · cases h
  | float x =>
    rintro p ⟨⟩
    exact x.visible_toText
  | text t =>
    rintro p ⟨⟩
    exact visible_printString t
  | array vs ih =>
    intro p h
    obtain ⟨parts, hparts, rfl⟩ := print_array_iff.mp h
    apply visible_enclose (by decide) (by decide)
    exact forall_right_of_forall₂ hparts fun v hv part hpart => ih v hv hpart
  | object ms ih =>
    intro p h
    obtain ⟨parts, hparts, rfl⟩ := print_object_iff.mp h
    apply visible_enclose (by decide) (by decide)
    refine forall_right_of_forall₂ hparts ?_
    rintro m hm _ ⟨value, hvalue, rfl⟩
    have hcolon : Text.Visible ": " := by decide
    exact ((visible_printString m.1).append hcolon).append (ih m hm hvalue)

/-- A printed value can be read, and this is what is read. -/
theorem read_print {v : Json} {p : Text} (h : v.print = .ok p) : read p = .ok v.reread := by
  have hnil : Ends [] := nofun
  have hreads := readFrom_print v h [] hnil
  rw [List.append_nil] at hreads
  have hmark : ¬p.head?.map CodePoint.val = some 0xfeff := by
    intro hmark
    obtain ⟨c, hc, hval⟩ := Option.map_eq_some_iff.mp hmark
    have hle := (visible_print v h c (List.mem_of_head? hc)).2
    omega
  rw [← hreads.skipSpace_eq] at hreads
  exact read_eq_ok_iff.mpr ⟨hmark, [], hreads, rfl⟩

/-- A value as the reader makes it: no surrogates in it are left to join, and no object has two
members with one name. -/
abbrev Canonical : Json → Prop :=
  Meets { text := Text.Joined, names := fun keys => keys.Nodup ∧ ∀ key ∈ keys, key.Joined }

/-- A value in which no floating point number occurs. -/
abbrev FloatFree : Json → Prop := Meets { float := fun _ => False }

private theorem rereadItems_eq {vs : List Json} (h : ∀ v ∈ vs, v.reread = v) :
    rereadItems vs = vs := by
  rw [rereadItems_eq_map]
  exact (List.map_congr_left h).trans (List.map_id vs)

private theorem rereadMembers_eq {ms : List (Text × Json)}
    (hkeys : ∀ key ∈ ms.map Prod.fst, key.Joined)
    (h : ∀ m ∈ ms, m.2.reread = m.2) : rereadMembers ms = ms := by
  induction ms with
  | nil => rfl
  | cons m ms ih =>
    rw [List.map_cons, List.forall_mem_cons] at hkeys
    rw [List.forall_mem_cons] at h
    rw [rereadMembers, hkeys.1.joinPairs_eq, h.1, ih hkeys.2 h.2]

theorem Canonical.reread_eq {v : Json} (h : v.Canonical) (hfloat : v.FloatFree) :
    v.reread = v := by
  induction h with
  | null => rfl
  | bool => rfl
  | int => rfl
  | float => exact (meets_float_iff.mp hfloat).elim
  | text ht => rw [reread, ht.joinPairs_eq]
  | array _ ih =>
    have hitems := meets_array_iff.mp hfloat
    rw [reread, rereadItems_eq fun v hv => ih v hv (hitems v hv)]
  | object hkeys _ ih =>
    have hmembers := (meets_object_iff.mp hfloat).2
    rw [reread, rereadMembers_eq hkeys.2 fun m hm => ih m hm (hmembers m hm),
      Entries.insertAll_of_nodup hkeys.1]
    rfl

private theorem Lexeme.canonical {l : Lexeme} {v : Json} (h : l.value = .ok v) : v.Canonical := by
  rw [Lexeme.value.eq_def] at h
  split at h
  · obtain ⟨n, _, h⟩ := bind_eq_ok.mp h
    cases h
    exact .int trivial
  · cases h
    exact .float trivial

private theorem atom_canonical {t rest : Text} {v : Json} (h : atom t = .ok (v, rest)) :
    v.Canonical := by
  rw [atom] at h
  split at h
  · rename_i hword
    cases h
    obtain ⟨⟨word, v'⟩, hmem, hword⟩ := List.exists_of_findSome?_eq_some hword
    obtain ⟨_, _, hword⟩ := Option.map_eq_some_iff.mp hword
    cases hword
    have hwords : ∀ w ∈ words, w.2.Canonical := by
      simp only [words, List.forall_mem_cons]
      exact ⟨.null, .bool _, .bool _, .float trivial, .float trivial, .float trivial,
        List.forall_mem_nil _⟩
    exact hwords _ hmem
  · split at h
    · cases h
    · split at h
      · rename_i hvalue
        cases h
        exact Lexeme.canonical hvalue
      · cases h

/-- All that was found is as the reader makes it, what was found before granted. -/
def Found.Canonical : Found → Prop
  | .value v => v.Canonical
  | .items vs => (Json.array vs).Canonical
  | .members before after => (Json.object before).Canonical → (Json.object after).Canonical

private theorem Canonical.insert {key : Text} {v : Json} {ms : List (Text × Json)}
    (h : (Json.object ms).Canonical) (hkey : key.Joined) (hv : v.Canonical) :
    (Json.object (Entries.insert key v ms)).Canonical := by
  obtain ⟨⟨hnodup, hkeys⟩, hvalues⟩ := meets_object_iff.mp h
  have hfst := Entries.map_fst_insert key v ms
  refine .object ⟨?_, ?_⟩ fun m hm => ?_
  · rw [hfst]
    split
    · exact hnodup
    · rename_i hnew
      exact List.nodup_append.mpr ⟨hnodup, List.nodup_singleton key, by
        intro k hk k' hk' heq
        exact hnew (List.mem_singleton.mp hk' ▸ heq ▸ hk)⟩
  · rw [hfst]
    split
    · exact hkeys
    · exact List.forall_mem_append.mpr ⟨hkeys, List.forall_mem_singleton.mpr hkey⟩
  · rcases Entries.mem_insert hm with heq | hm
    · exact heq ▸ hv
    · exact hvalues m hm

/-- What is read from a text without surrogates is as the reader makes it. -/
theorem Reads.canonical {t rest : Text} {g : Found} (h : Reads t g rest) (ht : t.Scalar) :
    g.Canonical := by
  have hempty : (Json.object []).Canonical :=
    .object ⟨List.nodup_nil, nofun⟩ nofun
  induction h with
  | string hs => exact .text (joined_of_string hs (ht.of_suffix (List.suffix_cons _ _)))
  | emptyArray => exact .array nofun
  | array _ ih =>
    exact ih (ht.of_suffix ((skipSpace_suffix _).trans (List.suffix_cons _ _)))
  | emptyObject => exact hempty
  | object _ ih =>
    exact ih (ht.of_suffix ((skipSpace_suffix _).trans (List.suffix_cons _ _))) hempty
  | atom ha => exact atom_canonical ha
  | lastItem _ _ ih => exact .array (List.forall_mem_singleton.mpr (ih ht))
  | item hv hc _ ih ih' =>
    have hlater := ih' (ht.of_suffix ((skipSpace_behind hc).suffix.trans hv.behind.suffix))
    exact .array (List.forall_mem_cons.mpr ⟨ih ht, meets_array_iff.mp hlater⟩)
  | lastMember hk hc _ _ ih =>
    have hqs := ht.of_suffix (List.suffix_cons _ _)
    have hcs := hqs.of_suffix ((skipSpace_behind hc).suffix.trans (string_behind hk).suffix)
    exact fun hbefore => hbefore.insert (joined_of_string hk hqs) (ih hcs)
  | member hk hc hv hd _ ih ih' =>
    have hqs := ht.of_suffix (List.suffix_cons _ _)
    have hcs := hqs.of_suffix ((skipSpace_behind hc).suffix.trans (string_behind hk).suffix)
    have hds := hcs.of_suffix ((skipSpace_behind hd).suffix.trans hv.behind.suffix)
    exact fun hbefore => ih' hds (hbefore.insert (joined_of_string hk hqs) (ih hcs))

theorem canonical_of_read {t : Text} {v : Json} (h : read t = .ok v) (ht : t.Scalar) :
    v.Canonical := by
  obtain ⟨rest, hreads⟩ := reads_of_read h
  exact hreads.canonical (ht.of_suffix (skipSpace_suffix t))

end Json

namespace Utf8

private theorem not_isSurrogate {n : Nat} (h : n < 0xd800 ∨ 0xdfff < n) :
    (CodePoint.ofNat n).isSurrogate = false := by
  rw [Bool.eq_false_iff, Ne, CodePoint.isSurrogate_iff, CodePoint.ofNat]
  split
  · show ¬(0xd800 ≤ n ∧ n ≤ 0xdfff)
    omega
  · decide

/-- The head is no surrogate, if it is a code point at all. -/
def Head.Scalar : Head → Prop
  | .scalar c _ => c.isSurrogate = false
  | .flaw _ _ => True

theorem isContinuation_iff {b : UInt8} :
    isContinuation b = true ↔ 0x80 ≤ b.toNat ∧ b.toNat ≤ 0xbf := by
  simp [isContinuation, UInt8.le_iff_toNat_le]

theorem isSecond_iff {a b : UInt8} :
    isSecond a b = true ↔ 0x80 ≤ b.toNat ∧ b.toNat ≤ 0xbf ∧ (a.toNat = 0xe0 → 0xa0 ≤ b.toNat) ∧
      (a.toNat = 0xed → b.toNat ≤ 0x9f) ∧ (a.toNat = 0xf0 → 0x90 ≤ b.toNat) ∧
      (a.toNat = 0xf4 → b.toNat ≤ 0x8f) := by
  simp only [isSecond, isContinuation, ← UInt8.toNat_inj]
  repeat' split
  all_goals
    simp only [Bool.and_eq_true, decide_eq_true_eq, UInt8.le_iff_toNat_le, UInt8.reduceToNat] at *
    omega

private theorem scalar_head (a : UInt8) (rest : Bytes) : (head a rest).Scalar := by
  fun_cases head a rest with
  | case1 =>
    rename_i ha
    simp only [UInt8.lt_iff_toNat_lt, UInt8.reduceToNat] at ha
    exact not_isSurrogate (by omega)
  | case4 _ _ ha b _ hb =>
    simp only [UInt8.lt_iff_toNat_lt, UInt8.reduceToNat] at ha
    rw [isContinuation_iff] at hb
    exact not_isSurrogate (by omega)
  | case8 _ _ hge hlt b hb c _ hc =>
    simp only [UInt8.lt_iff_toNat_lt, UInt8.reduceToNat] at hge hlt
    rw [isContinuation_iff] at hc
    obtain ⟨hb, hb', _, hed, _, _⟩ := isSecond_iff.mp hb
    have hed' := Nat.lt_trichotomy a.toNat 0xed
    exact not_isSurrogate (by omega)
  | case14 _ _ _ hge hlt b hb c hc d _ hd =>
    simp only [UInt8.lt_iff_toNat_lt, UInt8.reduceToNat] at hge hlt
    obtain ⟨hb, _, _, _, hf0, _⟩ := isSecond_iff.mp hb
    exact not_isSurrogate (by omega)
  | _ => trivial

theorem scalar_of_decodeFrom {position : Nat} {bytes : Bytes} {t : Text}
    (h : decodeFrom position bytes = .ok t) : t.Scalar := by
  fun_induction decodeFrom position bytes generalizing t with
  | case1 =>
    cases h
    exact nofun
  | case2 position a rest c more hhead ih =>
    obtain ⟨cs, hcs, h⟩ := bind_eq_ok.mp h
    cases h
    have hc : (Head.scalar c more).Scalar := hhead ▸ scalar_head a rest
    exact List.forall_mem_cons.mpr ⟨hc, ih hcs⟩
  | case3 => cases h

end Utf8

end RubyLanguageServer
