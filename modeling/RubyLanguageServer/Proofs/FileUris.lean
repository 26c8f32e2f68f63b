import RubyLanguageServer.Proofs.Headers
import RubyLanguageServer.Proofs.Paths
import RubyLanguageServer.Proofs.Portable
import RubyLanguageServer.Proofs.Utf8Forms
import RubyLanguageServer.Workspace.Uri
/-!
# File URIs, written and read again

The URI of a path holds nothing that the general rules for URLs would take for a delimiter, except
the slashes of the path itself, and its first slash ends an empty authority. So the path of the URI
is the quoted path, and what it denotes is the path in normal form.
-/
namespace RubyLanguageServer

namespace Text

private theorem mem_of_mem_splitOn {sep c : CodePoint} {t part : Text}
    (hpart : part ∈ splitOn sep t) (hc : c ∈ part) : c ∈ t := by
  induction t generalizing part with
  | nil =>
    rw [splitOn, List.mem_singleton] at hpart
    exact hpart ▸ hc
  | cons d t ih =>
    rw [splitOn] at hpart
    split at hpart
    · rcases List.mem_cons.mp hpart with rfl | hpart
      · cases hc
      · exact List.mem_cons_of_mem d (ih hpart hc)
    · cases hsplit : splitOn sep t with
      | nil =>
        rw [hsplit] at hpart
        obtain rfl := List.mem_singleton.mp hpart
        exact List.mem_cons.mpr (.inl (List.mem_singleton.mp hc))
      | cons p ps =>
        rw [hsplit] at hpart ih
        rcases List.mem_cons.mp hpart with rfl | hpart
        · rcases List.mem_cons.mp hc with rfl | hc
          · exact List.mem_cons_self
          · exact List.mem_cons_of_mem d (ih List.mem_cons_self hc)
        · exact List.mem_cons_of_mem d (ih (List.mem_cons_of_mem p hpart) hc)

private theorem mem_joinWith {sep : Text} {parts : List Text} {c : CodePoint}
    (h : c ∈ joinWith sep parts) : c ∈ sep ∨ ∃ part ∈ parts, c ∈ part := by
  fun_induction joinWith sep parts with
  | case1 => cases h
  | case2 t => exact .inr ⟨t, List.mem_singleton_self t, h⟩
  | case3 t u ts ih =>
    rcases List.mem_append.mp h with h | h
    · rcases List.mem_append.mp h with h | h
      · exact .inr ⟨t, List.mem_cons_self, h⟩
      · exact .inl h
    · refine (ih h).imp_right ?_
      rintro ⟨part, hpart, hc⟩
      exact ⟨part, List.mem_cons_of_mem t hpart, hc⟩

end Text

namespace Path

private theorem push_subset (kept : List Text) (component : Text) :
    push kept component ⊆ component :: kept := by
  rw [push]
  split
  · exact List.subset_cons_self component kept
  · split
    · exact fun c hc => List.mem_cons_of_mem component (List.mem_of_mem_tail hc)
    · exact List.Subset.refl _

private theorem mem_of_mem_foldl_push {parts kept : List Text} {component : Text}
    (h : component ∈ parts.foldl push kept) : component ∈ parts ∨ component ∈ kept := by
  induction parts generalizing kept with
  | nil => exact .inr h
  | cons part parts ih =>
    rcases ih h with h | h
    · exact .inl (List.mem_cons_of_mem part h)
    · rcases List.mem_cons.mp (push_subset kept part h) with rfl | h
      · exact .inl List.mem_cons_self
      · exact .inr h

theorem mem_normal {t : Text} {c : CodePoint} (h : c ∈ normal t) : c = slash ∨ c ∈ t := by
  rcases List.mem_append.mp h with h | h
  · left
    rcases leading_cases t with hlead | hlead <;> simpa [hlead] using h
  · rcases Text.mem_joinWith h with h | ⟨part, hpart, hc⟩
    · exact .inl (List.mem_singleton.mp h)
    · have hsplit := mem_of_mem_foldl_push (List.mem_reverse.mp hpart)
      exact .inr (Text.mem_of_mem_splitOn (hsplit.resolve_right List.not_mem_nil) hc)

private theorem scalar_normal {t : Text} (h : t.Scalar) : (normal t).Scalar := by
  intro c hc
  rcases mem_normal hc with rfl | hc
  · decide
  · exact h c hc

private theorem scalar_join {directory name : Text} (hdirectory : directory.Scalar)
    (hname : name.Scalar) :
    (join directory name).Scalar := by
  have hslash : Text.Scalar [slash] := by decide
  rw [join]
  split
  · exact List.forall_mem_append.mpr ⟨hdirectory, hname⟩
  · refine List.forall_mem_append.mpr ⟨hdirectory, List.forall_mem_cons.mpr ⟨?_, hname⟩⟩
    exact hslash slash (List.mem_singleton_self _)

/-- Only a relative path depends on the working directory. -/
theorem scalar_absolute {current t : Text} (hcurrent : t.head? ≠ some slash → current.Scalar)
    (h : t.Scalar) : (absolute current t).Scalar := by
  apply scalar_normal
  split
  · exact h
  · rename_i hrelative
    exact scalar_join (hcurrent hrelative) h

end Path

namespace Uri

/-- A character of a quoted path: visible ASCII that ends no path. -/
structure Quoted (c : CodePoint) : Prop where
  visible : 0x20 < c.val
  ascii : c.isAscii = true
  noQuery : c ≠ '?'
  noFragment : c ≠ '#'

private theorem quoted_quoteByte (b : UInt8) {c : CodePoint} (hc : c ∈ quoteByte b) : Quoted c := by
  have hall : ∀ n < 256, ∀ c ∈ quoteByte (.ofNat n),
      0x20 < c.val ∧ c.isAscii = true ∧ c ≠ '?' ∧ c ≠ '#' := by decide +kernel
  rw [← UInt8.ofNat_toNat (x := b)] at hc
  obtain ⟨hvisible, hascii, hquery, hfragment⟩ := hall b.toNat b.toNat_lt c hc
  exact ⟨hvisible, hascii, hquery, hfragment⟩

private theorem unquoteBytes_quoteByte (b : UInt8) (t : Text) :
    unquoteBytes (quoteByte b ++ t) = b :: unquoteBytes t := by
  have hlt := b.toNat_lt
  rw [quoteByte]
  split
  · rename_i hunreserved
    have hpercent : CodePoint.ofNat b.toNat ≠ CodePoint.ofChar '%' := by
      have hb : b ≠ 0x25 := by
        rintro rfl
        revert hunreserved
        decide
      exact Frame.ofByte_ne hb
    rw [List.singleton_append, unquoteBytes.eq_def]
    simp only [if_neg hpercent, CodePoint.val_ofNat (show b.toNat < 0x110000 by omega),
      UInt8.ofNat_toNat]
  · have hhigh := CodePoint.hexValue?_hexDigitUpper (b.toNat / 16) (by omega)
    have hlow := CodePoint.hexValue?_hexDigitUpper (b.toNat % 16) (by omega)
    have hvalue : b.toNat / 16 * 16 + b.toNat % 16 = b.toNat := by omega
    simp [unquoteBytes, hhigh, hlow, hvalue]

/-- Unquoting undoes quoting, a percent sign in the path included. -/
theorem unquoteBytes_flatMap_quoteByte (bytes : Bytes) :
    unquoteBytes (bytes.flatMap quoteByte) = bytes := by
  induction bytes with
  | nil => rfl
  | cons b bytes ih => rw [List.flatMap_cons, unquoteBytes_quoteByte, ih]

private theorem unquote_of_ascii {t : Text} (h : ∀ c ∈ t, c.isAscii = true) :
    unquote t = Utf8.decodeLossy (unquoteBytes t) := by
  cases t with
  | nil => rw [unquote, unquoteBytes, Utf8.decodeLossy]
  | cons c t =>
    rw [List.forall_mem_cons] at h
    rw [unquote, if_pos h.1, List.takeWhile_eq_self_iff.mpr h.2,
      List.dropWhile_eq_nil_iff.mpr h.2, unquote, List.append_nil]

private theorem tidied_of_visible {t : Text} (h : ∀ c ∈ t, 0x20 < c.val) : tidied t = t := by
  have hlead : t.dropWhile (fun c => decide (c.val ≤ 0x20)) = t := by
    cases t with
    | nil => rfl
    | cons c t =>
      have hc := h c List.mem_cons_self
      exact List.dropWhile_cons_of_neg (by simpa using hc)
  rw [tidied, hlead, List.filter_eq_self]
  intro c hc
  have hvisible := h c hc
  simp only [Bool.not_eq_true', Bool.or_eq_false_iff, beq_eq_false_iff_ne]
  omega

private theorem splitScheme_file (t : Text) : splitScheme (Text.ofString "file:" ++ t) =
    (Text.ofString "file", t) := rfl

theorem splitAuthority_slash {t : Text} (h : t.head? = some Path.slash) :
    splitAuthority (Text.ofString "//" ++ t) = ([], t) := by
  obtain ⟨t, rfl⟩ := List.head?_eq_some_iff.mp h
  rfl

private theorem takeWhile_quoted {t : Text} (h : ∀ c ∈ t, Quoted c) :
    t.takeWhile (fun c => !(c = CodePoint.ofChar '?' || c = CodePoint.ofChar '#')) = t := by
  rw [List.takeWhile_eq_self_iff]
  intro c hc
  simp [(h c hc).noQuery, (h c hc).noFragment]

theorem toPath_of_quoted {t : Text} (hslash : t.head? = some Path.slash)
    (hquoted : ∀ c ∈ t, Quoted c) :
    toPath (Text.ofString "file://" ++ t) = .ok (Utf8.decodeLossy (unquoteBytes t)) := by
  have hvisible : ∀ c ∈ Text.ofString "file://" ++ t, 0x20 < c.val := by
    rw [List.forall_mem_append]
    exact ⟨by decide, fun c hc => (hquoted c hc).visible⟩
  have hparts : Text.ofString "file://" ++ t =
      Text.ofString "file:" ++ (Text.ofString "//" ++ t) := rfl
  have hauthority : checkAuthority [] = .ok () := rfl
  rw [toPath, tidied_of_visible hvisible, hparts, splitScheme_file]
  simp only [splitAuthority_slash hslash, hauthority, ok_bind, if_true, takeWhile_quoted hquoted,
    unquote_of_ascii fun c hc => (hquoted c hc).ascii]
  rfl

def quote (path : Text) : Text := (path.flatMap Utf8.encodeScalar).flatMap quoteByte

private theorem quoted_quote {path : Text} {c : CodePoint} (h : c ∈ quote path) : Quoted c := by
  obtain ⟨b, -, hc⟩ := List.mem_flatMap.mp h
  exact quoted_quoteByte b hc

theorem ofPath_eq_ok_iff {current path uri : Text} : ofPath current path = .ok uri ↔
    (Path.absolute current path).Scalar ∧
      uri = Text.ofString "file://" ++ quote (Path.absolute current path) := by
  rw [ofPath, Utf8.encode, ← Utf8.loneSurrogates?_eq_none_iff]
  cases Utf8.loneSurrogates? (Path.absolute current path) with
  | none =>
    simp only [ok_bind, true_and]
    exact ⟨fun h => (Except.ok.inj h).symm, fun h => congrArg Except.ok h.symm⟩
  | some s =>
    constructor
    · intro h
      cases h
    · rintro ⟨h, -⟩
      cases h

private theorem head?_quote_absolute (current path : Text) :
    (quote (Path.absolute current path)).head? = some Path.slash := by
  obtain ⟨rest, hrest⟩ := List.head?_eq_some_iff.mp (Path.head?_normal _)
  rw [Path.absolute, hrest]
  rfl

theorem toPath_of_ofPath {current path uri : Text} (h : ofPath current path = .ok uri) :
    toPath uri = .ok (Path.absolute current path) := by
  obtain ⟨hscalar, rfl⟩ := ofPath_eq_ok_iff.mp h
  rw [toPath_of_quoted (head?_quote_absolute _ _) fun c hc => quoted_quote hc, quote,
    unquoteBytes_flatMap_quoteByte, Utf8.decodeLossy_flatMap hscalar]

/-- Paths of scalar values have URIs in ASCII, from which their normal forms are read back, so that
paths with different normal forms have different URIs. A relative path is taken from the working
directory, which must be of scalar values too. -/
theorem uri_inverts {current path : Text}
    (hcurrent : path.head? ≠ some Path.slash → current.Scalar) (h : path.Scalar) :
    ∃ rest : Text, ofPath current path = .ok (Text.ofString "file://" ++ rest) ∧
      (∀ c ∈ rest, c.isAscii = true) ∧
      toPath (Text.ofString "file://" ++ rest) = .ok (Path.absolute current path) ∧
      ∀ other : Text, ofPath current other = ofPath current path ↔
        Path.absolute current other = Path.absolute current path := by
  have huri : ofPath current path =
      .ok (Text.ofString "file://" ++ quote (Path.absolute current path)) :=
    ofPath_eq_ok_iff.mpr ⟨Path.scalar_absolute hcurrent h, rfl⟩
  refine ⟨quote (Path.absolute current path), huri, fun c hc => (quoted_quote hc).ascii,
    toPath_of_ofPath huri, fun other => ⟨fun hsame => ?_, fun hsame => ?_⟩⟩
  · have hother := toPath_of_ofPath (hsame.trans huri)
    rw [toPath_of_ofPath huri] at hother
    exact (Except.ok.inj hother).symm
  · rw [ofPath, ofPath, hsame]

/-- A relative path with a way back, a percent sign before digits, delimiters of URLs, a tab, a line
feed and characters beyond ASCII. -/
def awkward : Text := "x/../../%41 ?#;:[\t\né😀"

/-- The path in a directory that begins with two slashes. -/
theorem uri_inverts_awkward :
    awkward.Scalar ∧
    ofPath "//w/" awkward = .ok "file:////%2541%20%3F%23%3B%3A%5B%09%0A%C3%A9%F0%9F%98%80" ∧
    toPath "file:////%2541%20%3F%23%3B%3A%5B%09%0A%C3%A9%F0%9F%98%80" =
      .ok "//%41 ?#;:[\t\né😀" := by
  have hscalar : awkward.Scalar := by decide +kernel
  have hcurrent : Text.Scalar "//w/" := by decide +kernel
  have hpath : Path.absolute "//w/" awkward = Text.ofString "//%41 ?#;:[\t\né😀" := by
    decide +kernel
  have huri : ofPath "//w/" awkward = .ok (Text.ofString
      "file:////%2541%20%3F%23%3B%3A%5B%09%0A%C3%A9%F0%9F%98%80") := by
    rw [ofPath_eq_ok_iff, hpath]
    decide +kernel
  obtain ⟨rest, hrest, -, hback, -⟩ := uri_inverts (fun _ => hcurrent) hscalar
  rw [huri] at hrest
  rw [← Except.ok.inj hrest, hpath] at hback
  exact ⟨hscalar, huri, hback⟩

end Uri

end RubyLanguageServer
