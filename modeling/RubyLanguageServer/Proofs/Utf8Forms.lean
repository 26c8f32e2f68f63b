import RubyLanguageServer.Proofs.Rereading
/-!
# UTF-8, encoded and decoded

Encoding and strict decoding are inverse: bytes are decoded as a text exactly if they are the
encoding of that text and it has no surrogates. Lossy decoding gives the same text there, since it
meets no flaw.
-/
namespace RubyLanguageServer

namespace Utf8

private theorem toNat_ofNat {n : Nat} (h : n < 256) :
    (UInt8.ofNat n).toNat = n := Nat.mod_eq_of_lt h

/-- The bytes of a scalar value: the first one, those behind it, and the value. -/
inductive Sequence : UInt8 → Bytes → CodePoint → Prop
  | one {a : UInt8} : a.toNat < 0x80 → Sequence a [] (.ofNat a.toNat)
  | two {a b : UInt8} : 0xc2 ≤ a.toNat → a.toNat < 0xe0 → isContinuation b = true →
      Sequence a [b] (.ofNat ((a.toNat - 0xc0) * 0x40 + (b.toNat - 0x80)))
  | three {a b c : UInt8} : 0xe0 ≤ a.toNat → a.toNat < 0xf0 → isSecond a b = true →
      isContinuation c = true →
      Sequence a [b, c] (.ofNat ((a.toNat - 0xe0) * 0x1000 + (b.toNat - 0x80) * 0x40 +
        (c.toNat - 0x80)))
  | four {a b c d : UInt8} : 0xf0 ≤ a.toNat → a.toNat < 0xf5 → isSecond a b = true →
      isContinuation c = true → isContinuation d = true →
      Sequence a [b, c, d] (.ofNat ((a.toNat - 0xf0) * 0x40000 + (b.toNat - 0x80) * 0x1000 +
        (c.toNat - 0x80) * 0x40 + (d.toNat - 0x80)))

private theorem head_of_sequence {a : UInt8} {tail : Bytes} {c : CodePoint} (h : Sequence a tail c)
    (rest : Bytes) : head a (tail ++ rest) = .scalar c tail.length := by
  cases h with
  | one ha => simp [head.eq_def, UInt8.lt_iff_toNat_lt, ha]
  | two hge hlt hb =>
    have h80 : ¬a.toNat < 0x80 := by omega
    have hc2 : ¬a.toNat < 0xc2 := by omega
    simp [head.eq_def, UInt8.lt_iff_toNat_lt, h80, hc2, hlt, hb]
  | three hge hlt hb hc =>
    have h80 : ¬a.toNat < 0x80 := by omega
    have hc2 : ¬a.toNat < 0xc2 := by omega
    have he0 : ¬a.toNat < 0xe0 := by omega
    simp [head.eq_def, UInt8.lt_iff_toNat_lt, h80, hc2, he0, hlt, hb, hc]
  | four hge hlt hb hc hd =>
    have h80 : ¬a.toNat < 0x80 := by omega
    have hc2 : ¬a.toNat < 0xc2 := by omega
    have he0 : ¬a.toNat < 0xe0 := by omega
    have hf0 : ¬a.toNat < 0xf0 := by omega
    simp [head.eq_def, UInt8.lt_iff_toNat_lt, h80, hc2, he0, hf0, hlt, hb, hc, hd]

private theorem sequence_of_head {a : UInt8} {rest : Bytes} {c : CodePoint} {more : Nat}
    (h : head a rest = .scalar c more) :
    ∃ tail rest', rest = tail ++ rest' ∧ tail.length = more ∧ Sequence a tail c := by
  revert h
  fun_cases head a rest with
  | case1 =>
    rename_i ha
    intro h
    cases h
    exact ⟨[], rest, rfl, rfl, .one ha⟩
  | case4 _ hge hlt b rest hb =>
    intro h
    obtain ⟨rfl, rfl⟩ := Head.scalar.inj h
    simp only [UInt8.lt_iff_toNat_lt, UInt8.reduceToNat] at hge hlt
    exact ⟨[b], rest, rfl, rfl, .two (Nat.not_lt.mp hge) hlt hb⟩
  | case8 _ _ hge hlt b hb d rest hd =>
    intro h
    obtain ⟨rfl, rfl⟩ := Head.scalar.inj h
    simp only [UInt8.lt_iff_toNat_lt, UInt8.reduceToNat] at hge hlt
    exact ⟨[b, d], rest, rfl, rfl, .three (Nat.not_lt.mp hge) hlt hb hd⟩
  | case14 _ _ _ hge hlt b hb d hd e rest he =>
    intro h
    obtain ⟨rfl, rfl⟩ := Head.scalar.inj h
    simp only [UInt8.lt_iff_toNat_lt, UInt8.reduceToNat] at hge hlt
    exact ⟨[b, d, e], rest, rfl, rfl, .four (Nat.not_lt.mp hge) hlt hb hd he⟩
  | _ =>
    intro h
    cases h

private theorem ofNat_eq {n : Nat} {b : UInt8} (h : n = b.toNat) : UInt8.ofNat n = b := by
  rw [h, UInt8.ofNat_toNat]

/-- A scalar value is encoded by the only sequence of bytes that has this value. -/
theorem Sequence.encodeScalar_eq {a : UInt8} {tail : Bytes} {c : CodePoint}
    (h : Sequence a tail c) : encodeScalar c = a :: tail := by
  cases h with
  | one ha =>
    have hval := CodePoint.val_ofNat (n := a.toNat) (by omega)
    rw [encodeScalar, hval, if_pos ha, UInt8.ofNat_toNat]
  | @two b hge hlt hb =>
    rw [isContinuation_iff] at hb
    have hval := CodePoint.val_ofNat (n := (a.toNat - 0xc0) * 0x40 + (b.toNat - 0x80)) (by omega)
    rw [encodeScalar, hval, if_neg (by omega), if_pos (by omega)]
    simp only [List.cons.injEq, and_true]
    constructor <;> exact ofNat_eq (by omega)
  | @three b d hge hlt hb hd =>
    rw [isSecond_iff] at hb
    rw [isContinuation_iff] at hd
    have hval := CodePoint.val_ofNat (n := (a.toNat - 0xe0) * 0x1000 + (b.toNat - 0x80) * 0x40 +
      (d.toNat - 0x80)) (by omega)
    rw [encodeScalar, hval, if_neg (by omega), if_neg (by omega), if_pos (by omega)]
    simp only [List.cons.injEq, and_true]
    refine ⟨?_, ?_, ?_⟩ <;> exact ofNat_eq (by omega)
  | @four b d e hge hlt hb hd he =>
    rw [isSecond_iff] at hb
    rw [isContinuation_iff] at hd he
    have hval := CodePoint.val_ofNat (n := (a.toNat - 0xf0) * 0x40000 +
      (b.toNat - 0x80) * 0x1000 + (d.toNat - 0x80) * 0x40 + (e.toNat - 0x80)) (by omega)
    rw [encodeScalar, hval, if_neg (by omega), if_neg (by omega), if_neg (by omega)]
    simp only [List.cons.injEq, and_true]
    refine ⟨?_, ?_, ?_, ?_⟩ <;> exact ofNat_eq (by omega)

theorem exists_sequence {c : CodePoint} (h : c.isSurrogate = false) :
    ∃ a tail, Sequence a tail c := by
  have hlt := c.isLt
  have hscalar : ¬(0xd800 ≤ c.val ∧ c.val ≤ 0xdfff) := by
    rw [← CodePoint.isSurrogate_iff, h]
    exact Bool.false_ne_true
  have hvalue {n : Nat} (hn : n = c.val) : CodePoint.ofNat n = c := by
    rw [hn, CodePoint.ofNat_val]
  have hcont (n : Nat) : isContinuation (.ofNat (0x80 + n % 0x40)) = true := by
    rw [isContinuation_iff, toNat_ofNat (by omega)]
    omega
  have hlast (n : Nat) := toNat_ofNat (n := 0x80 + n % 0x40) (by omega)
  by_cases h1 : c.val < 0x80
  · have ha := toNat_ofNat (n := c.val) (by omega)
    have hone := Sequence.one (a := .ofNat c.val) (by omega)
    rw [ha, CodePoint.ofNat_val] at hone
    exact ⟨_, _, hone⟩
  by_cases h2 : c.val < 0x800
  · have ha := toNat_ofNat (n := 0xc0 + c.val / 0x40) (by omega)
    have htwo := Sequence.two (a := .ofNat (0xc0 + c.val / 0x40)) (by omega) (by omega)
      (hcont c.val)
    rw [ha, hlast, hvalue (by omega)] at htwo
    exact ⟨_, _, htwo⟩
  by_cases h3 : c.val < 0x10000
  · have ha := toNat_ofNat (n := 0xe0 + c.val / 0x1000) (by omega)
    have hb := hlast (c.val / 0x40)
    have hsecond : isSecond (.ofNat (0xe0 + c.val / 0x1000))
        (.ofNat (0x80 + c.val / 0x40 % 0x40)) = true := by
      rw [isSecond_iff, ha, hb]
      omega
    have hthree := Sequence.three (by omega) (by omega) hsecond (hcont c.val)
    rw [ha, hb, hlast, hvalue (by omega)] at hthree
    exact ⟨_, _, hthree⟩
  · have ha := toNat_ofNat (n := 0xf0 + c.val / 0x40000) (by omega)
    have hb := hlast (c.val / 0x1000)
    have hsecond : isSecond (.ofNat (0xf0 + c.val / 0x40000))
        (.ofNat (0x80 + c.val / 0x1000 % 0x40)) = true := by
      rw [isSecond_iff, ha, hb]
      omega
    have hfour := Sequence.four (by omega) (by omega) hsecond (hcont (c.val / 0x40))
      (hcont c.val)
    rw [ha, hb, hlast, hlast, hvalue (by omega)] at hfour
    exact ⟨_, _, hfour⟩

private theorem decodeFrom_sequence {a : UInt8} {tail : Bytes} {c : CodePoint}
    (h : Sequence a tail c)
    (position : Nat) (rest : Bytes) : decodeFrom position (a :: (tail ++ rest)) =
      (decodeFrom (position + tail.length + 1) rest).map (c :: ·) := by
  rw [decodeFrom, head_of_sequence h]
  simp only [List.drop_left]
  rfl

private theorem decodeFrom_flatMap {t : Text} (h : t.Scalar) (position : Nat) :
    decodeFrom position (t.flatMap encodeScalar) = .ok t := by
  induction t generalizing position with
  | nil => rw [List.flatMap_nil, decodeFrom]
  | cons c t ih =>
    rw [Text.Scalar, List.forall_mem_cons] at h
    obtain ⟨a, tail, hsequence⟩ := exists_sequence h.1
    rw [List.flatMap_cons, hsequence.encodeScalar_eq, List.cons_append,
      decodeFrom_sequence hsequence, ih h.2]
    rfl

theorem decodeLossy_flatMap {t : Text} (h : t.Scalar) :
    decodeLossy (t.flatMap encodeScalar) = t := by
  induction t with
  | nil => rw [List.flatMap_nil, decodeLossy]
  | cons c t ih =>
    rw [Text.Scalar, List.forall_mem_cons] at h
    obtain ⟨a, tail, hsequence⟩ := exists_sequence h.1
    rw [List.flatMap_cons, hsequence.encodeScalar_eq, List.cons_append, decodeLossy,
      head_of_sequence hsequence]
    simp only [List.drop_left, ih h.2]

private theorem flatMap_of_decodeFrom {position : Nat} {bytes : Bytes} {t : Text}
    (h : decodeFrom position bytes = .ok t) : bytes = t.flatMap encodeScalar := by
  fun_induction decodeFrom position bytes generalizing t with
  | case1 =>
    cases h
    rfl
  | case2 position a rest c more hhead ih =>
    obtain ⟨cs, hcs, h⟩ := bind_eq_ok.mp h
    cases h
    obtain ⟨tail, rest', rfl, rfl, hsequence⟩ := sequence_of_head hhead
    rw [List.drop_left] at ih hcs
    rw [List.flatMap_cons, hsequence.encodeScalar_eq, ih hcs, List.cons_append]
  | case3 => cases h

theorem decode_eq_ok_iff {bytes : Bytes} {t : Text} :
    decode bytes = .ok t ↔ t.Scalar ∧ bytes = t.flatMap encodeScalar := by
  constructor
  · intro h
    exact ⟨scalar_of_decodeFrom h, flatMap_of_decodeFrom h⟩
  · rintro ⟨hscalar, rfl⟩
    exact decodeFrom_flatMap hscalar 0

theorem encodeScalar_ofChar (c : Char) : encodeScalar (.ofChar c) = String.utf8EncodeChar c := by
  have hlt : c.val.toNat < 0x110000 := (CodePoint.ofChar c).isLt
  have hval : (CodePoint.ofChar c).val = c.val.toNat := rfl
  simp only [encodeScalar, String.utf8EncodeChar, hval]
  generalize c.val.toNat = n at hlt
  by_cases h₁ : n < 0x80
  · have h₁' : n ≤ 0x7f := by omega
    simp [h₁, h₁']
  by_cases h₂ : n < 0x800
  · have h₁' : ¬n ≤ 0x7f := by omega
    have h₂' : n ≤ 0x7ff := by omega
    have hmod : n / 64 % 32 = n / 64 := by omega
    simp [h₁, h₁', h₂, h₂', hmod, Nat.add_comm]
  by_cases h₃ : n < 0x10000
  · have h₁' : ¬n ≤ 0x7f := by omega
    have h₂' : ¬n ≤ 0x7ff := by omega
    have h₃' : n ≤ 0xffff := by omega
    have hmod : n / 4096 % 16 = n / 4096 := by omega
    simp [h₁, h₁', h₂, h₂', h₃, h₃', hmod, Nat.add_comm]
  · have h₁' : ¬n ≤ 0x7f := by omega
    have h₂' : ¬n ≤ 0x7ff := by omega
    have h₃' : ¬n ≤ 0xffff := by omega
    have hmod : n / 262144 % 8 = n / 262144 := by omega
    simp [h₁, h₁', h₂, h₂', h₃, h₃', hmod, Nat.add_comm]

private theorem flatMap_ofString (s : String) :
    (Text.ofString s).flatMap encodeScalar = s.toList.flatMap String.utf8EncodeChar := by
  rw [Text.ofString, List.flatMap_map]
  exact congrArg (s.toList.flatMap ·) (funext encodeScalar_ofChar)

theorem length_ofString_le (s : String) :
    (Text.ofString s).length ≤ (s.toList.flatMap String.utf8EncodeChar).length := by
  rw [Text.ofString, List.length_map]
  induction s.toList with
  | nil => exact Nat.le_refl 0
  | cons c cs ih =>
    have hpos : 0 < (String.utf8EncodeChar c).length := by
      rw [String.length_utf8EncodeChar]
      exact c.utf8Size_pos
    simp only [List.flatMap_cons, List.length_append, List.length_cons]
    omega

end Utf8

private theorem CodePoint.ofChar_toChar {c : CodePoint} (h : c.isSurrogate = false) :
    ofChar c.toChar = c := by
  have hlt := c.isLt
  have hvalid : c.val.isValidChar := by
    simp only [isSurrogate, Bool.and_eq_false_iff, decide_eq_false_iff_not] at h
    simp only [Nat.isValidChar]
    omega
  apply CodePoint.ext
  rw [toChar, h]
  show (Char.ofNat c.val).toNat = c.val
  rw [Char.ofNat, dif_pos hvalid]
  rfl

private theorem CodePoint.isSurrogate_ofChar (c : Char) : (ofChar c).isSurrogate = false := by
  have hvalid : c.val.toNat.isValidChar := c.valid
  have hval : (ofChar c).val = c.val.toNat := rfl
  simp only [isSurrogate, hval, Bool.and_eq_false_iff, decide_eq_false_iff_not]
  simp only [Nat.isValidChar] at hvalid
  omega

theorem Text.scalar_iff {t : Text} : t.Scalar ↔ ∃ s : String, t = ofString s := by
  constructor
  · intro h
    refine ⟨t.toString, ?_⟩
    rw [ofString, Text.toString, String.toList_ofList, List.map_map]
    conv_lhs => rw [← List.map_id t]
    exact List.map_congr_left fun c hc => (CodePoint.ofChar_toChar (h c hc)).symm
  · rintro ⟨s, rfl⟩ c hc
    obtain ⟨d, -, rfl⟩ := List.mem_map.mp hc
    exact CodePoint.isSurrogate_ofChar d

/-- Bytes are decoded as a text exactly if they are the encoding of a string with that text. -/
theorem Utf8.decode_eq_ok_iff_string {bytes : Bytes} {t : Text} :
    decode bytes = .ok t ↔
      ∃ s : String, t = .ofString s ∧ bytes = s.toList.flatMap String.utf8EncodeChar := by
  rw [decode_eq_ok_iff, Text.scalar_iff]
  constructor
  · rintro ⟨⟨s, rfl⟩, rfl⟩
    exact ⟨s, rfl, flatMap_ofString s⟩
  · rintro ⟨s, rfl, rfl⟩
    exact ⟨⟨s, rfl⟩, (flatMap_ofString s).symm⟩

end RubyLanguageServer
