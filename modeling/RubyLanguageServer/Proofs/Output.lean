import RubyLanguageServer.Proofs.Answers
import RubyLanguageServer.Proofs.Encoding
import RubyLanguageServer.Proofs.Framing
/-!
# The output is a sequence of whole frames

A message is written as a whole or not at all, and it is known which messages are not and which of
them overrun the stack. What is written is the length of the content between fixed bytes, and the
content, so that the contents are got back by cutting at the lengths.
-/
namespace RubyLanguageServer

namespace Text

def ascii (t : Text) : Bytes := t.map fun c => .ofNat c.val

private theorem Visible.toNat_ofNat {t : Text} (h : t.Visible) {c : CodePoint} (hc : c ∈ t) :
    (UInt8.ofNat c.val).toNat = c.val := by
  have hle := (h c hc).2
  exact Nat.mod_eq_of_lt (by omega)

private theorem Visible.asText_ascii {t : Text} (h : t.Visible) : Frame.asText t.ascii = t := by
  rw [Frame.asText, ascii, List.map_map]
  calc t.map _ = t.map id := List.map_congr_left fun c hc => by
        rw [Function.comp_apply, h.toNat_ofNat hc, CodePoint.ofNat_val, id]
    _ = t := List.map_id t

private theorem Visible.ascii_range {t : Text} (h : t.Visible) :
    ∀ b ∈ t.ascii, 0x20 ≤ b ∧ b ≤ 0x7e := by
  intro b hb
  obtain ⟨c, hc, rfl⟩ := List.mem_map.mp hb
  rw [UInt8.le_iff_toNat_le, UInt8.le_iff_toNat_le, h.toNat_ofNat hc]
  exact h c hc

theorem Visible.decode_ascii {t : Text} (h : t.Visible) : Utf8.decode t.ascii = .ok t := by
  have hlow : ∀ b ∈ t.ascii, b < 0x80 :=
    fun b hb => Nat.lt_of_le_of_lt (h.ascii_range b hb).2 (by decide)
  rw [Utf8.decode_ascii hlow, h.asText_ascii]

private theorem trimBy_of_forall {p : CodePoint → Bool} {t : Text} (h : ∀ c ∈ t, p c = false) :
    t.trimBy p = t := by
  have hkept {u : Text} (hu : ∀ c ∈ u, p c = false) : u.dropWhile p = u := by
    cases u with
    | nil => rfl
    | cons c cs => exact List.dropWhile_cons_of_neg (by simp [hu c List.mem_cons_self])
  have hreverse : ∀ c ∈ t.reverse, p c = false := fun c hc => h c (List.mem_reverse.mp hc)
  rw [trimBy, hkept h, hkept hreverse, List.reverse_reverse]

end Text

theorem Message.decode_of_print {members : List (Text × Json)} {content : Text} {m : Message}
    (hprint : (Json.object members).print = .ok content)
    (hreread : (Json.object members).reread = .object members)
    (hm : ofJson (.object members) = .ok m) : decode content.ascii = .ok m := by
  have hvisible := Json.visible_print _ hprint
  have hread := Json.read_print hprint
  rw [hreread] at hread
  rw [decode, hvisible.decode_ascii]
  simp only [hread, hm]

namespace Frame

private theorem visible_ofNat (n : Nat) : (Numeral.ofNat n).Visible :=
  Json.visible_of_isDigit fun _ => Numeral.isDigit_of_mem_ofNat

def lengthValue (n : Nat) : Bytes := 0x20 :: (Numeral.ofNat n).ascii ++ [0x0d]

private theorem lengthValue_ascii (n : Nat) : ∀ b ∈ lengthValue n, b < 0x80 := by
  have hdigits : ∀ b ∈ (Numeral.ofNat n).ascii, b < 0x80 := fun b hb =>
    Nat.lt_of_le_of_lt ((visible_ofNat n).ascii_range b hb).2 (by decide)
  rw [lengthValue, List.forall_mem_append, List.forall_mem_cons, List.forall_mem_singleton]
  exact ⟨⟨by decide, hdigits⟩, by decide⟩

private theorem lengthValue_noFeed (n : Nat) : 0x0a ∉ lengthValue n := by
  have hdigits : 0x0a ∉ (Numeral.ofNat n).ascii := fun hmem =>
    absurd ((visible_ofNat n).ascii_range 0x0a hmem).1 (by decide)
  rw [lengthValue, List.mem_append, List.mem_cons, List.mem_singleton, not_or, not_or]
  exact ⟨⟨by decide, hdigits⟩, by decide⟩

/-- The head that is written before a content of the given length. -/
def lengthHead (n : Nat) : Head where
  blanks := []
  lines := [.contentLength (lengthValue n) (lengthValue_ascii n) (lengthValue_noFeed n)]
  close := .returnFeed
  lines_ne_nil := nofun

private theorem frameBytes_eq (content : Text) :
    frameBytes content = (lengthHead content.length).bytes ++ content.ascii := by
  simp only [frameBytes, List.map_append, List.append_assoc, Head.bytes, lengthHead,
    HeaderLine.bytes, HeaderLine.contentLength, lengthValue, List.flatMap_cons, List.flatMap_nil,
    List.nil_append, List.cons_append]
  rfl

private theorem text_lengthValue (n : Nat) : Text.trim (asText (lengthValue n)) = Numeral.ofNat n :=
    by
  have hdigits := (visible_ofNat n).asText_ascii
  have hblank : ∀ c ∈ Numeral.ofNat n, c.isBlank = false := by
    intro c hc
    have hdigit := Numeral.isDigit_of_mem_ofNat hc
    simp only [CodePoint.isDigit, Bool.and_eq_true, decide_eq_true_eq] at hdigit
    simp only [CodePoint.isBlank, CodePoint.isWhite, Bool.or_eq_false_iff, Bool.and_eq_false_iff,
      decide_eq_false_iff_not, beq_eq_false_iff_ne]
    omega
  have hparts : asText (lengthValue n) =
      CodePoint.ofChar ' ' :: (asText (Numeral.ofNat n).ascii ++ [CodePoint.ofChar '\r']) := by
    simp only [asText, lengthValue, List.map_append, List.map_cons, List.map_nil, List.cons_append]
    rfl
  have hlead (t : Text) : Text.trim (CodePoint.ofChar ' ' :: t) = t.trim := rfl
  rw [hparts, hdigits, hlead]
  exact (Text.trimBy_append (by decide) _).trans (Text.trimBy_of_forall hblank)

private theorem declares_lengthHead (n : Nat) : (lengthHead n).Declares (Numeral.ofNat n) := by
  refine ⟨?_, fun hnil => Nat.toDigits_ne_nil (List.map_eq_nil_iff.mp hnil),
    fun _ => Numeral.isDigit_of_mem_ofNat⟩
  exact congrArg some (text_lengthValue n)

theorem exists_block {content : Text} (h : content.length ≤ 64 * 1024 * 1024) :
    ∃ f : Block, f.bytes = frameBytes content ∧ f.body = content.ascii := by
  have hlength : content.ascii.length = content.length := List.length_map _
  have hdigits : (Numeral.ofNat content.length).length ≤ 8 :=
    (Numeral.length_ofNat_le_iff (by decide)).mpr (by omega)
  have hdenotes : decimal (Numeral.ofNat content.length) = content.ascii.length := by
    rw [← value_eq_decimal fun _ => Numeral.isDigit_of_mem_ofNat, Numeral.value_ofNat, hlength]
  refine ⟨{ lengthHead content.length with
    digits := Numeral.ofNat content.length, body := content.ascii
    declares := declares_lengthHead content.length, digits_le := by omega
    denotes := hdenotes, body_le := by omega }, ?_, rfl⟩
  exact (frameBytes_eq content).symm

end Frame

namespace Outgoing

variable [Stack]

/-- The message can be written. Its members have the room there is, and it is around them. -/
def Writable (m : Outgoing) : Prop := m.payload.Writable (Stack.room + 1)

/-- The conversion of the message comes to a value for which the stack has no room. -/
def Overruns (m : Outgoing) : Prop := m.payload.Exhausts (Stack.room + 1)

theorem writable_iff {m : Outgoing} : m.Writable ↔ ∃ content, m.body = .ok content :=
  Payload.encode_ok_iff.symm

end Outgoing

namespace Session

variable {σ : Type} [Stack]

theorem contents_of_send {m : Outgoing} {content : Text} (h : m.body = .ok content)
    (s : Session σ) : ∃ s', s.send m = .ok s' ∧ s'.contents = s.contents ++ [content] := by
  obtain ⟨s', frame, hsend, -, hwritten, hframe⟩ := send_ok h s
  have hcontent : frame.content = content := by
    have hprinted := frame.printed
    rw [hframe, Payload.print_of_encode h] at hprinted
    exact (Except.ok.inj hprinted).symm
  refine ⟨s', hsend, ?_⟩
  rw [contents, hwritten, List.map_append, List.map_singleton, hcontent]
  rfl

end Session

namespace Json

end Json

end RubyLanguageServer
