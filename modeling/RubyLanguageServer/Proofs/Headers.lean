import Mathlib.Data.List.DropRight
import Mathlib.Data.List.Induction
import RubyLanguageServer.Proofs.Entries
import RubyLanguageServer.Wire.Frame
/-!
# Header blocks

The head of a frame, told by its parts: blank lines, header lines and the blank line behind them.
The headers are read from exactly such bytes, and the bytes behind the head are left. Of several
headers with one name the last one counts.
-/
namespace RubyLanguageServer

private theorem splitLine_of_not_mem {line : Bytes} (h : 0x0a ∉ line) (rest : Bytes) :
    splitLine (line ++ 0x0a :: rest) = (line ++ [0x0a], rest) := by
  induction line with
  | nil => simp [splitLine]
  | cons b bs ih =>
    simp only [List.mem_cons, not_or] at h
    simp only [List.cons_append, splitLine, if_neg (Ne.symm h.1), ih h.2]

private theorem not_mem_dropLast_splitLine (bs : Bytes) : 0x0a ∉ (splitLine bs).1.dropLast := by
  induction bs with
  | nil => exact List.not_mem_nil
  | cons b bs ih =>
    rw [splitLine]
    split
    · exact List.not_mem_nil
    · rename_i hb
      cases hline : (splitLine bs).1 with
      | nil => simp [hline]
      | cons c cs =>
        rw [hline] at ih
        simp only [hline, List.dropLast_cons_cons, List.mem_cons, not_or]
        exact ⟨Ne.symm hb, ih⟩

theorem exists_of_splitLine {bs : Bytes} (h : (splitLine bs).1.getLast? = some 0x0a) :
    ∃ line, (splitLine bs).1 = line ++ [0x0a] ∧ 0x0a ∉ line :=
  ⟨_, (List.dropLast_append_getLast? _ h).symm, not_mem_dropLast_splitLine bs⟩

namespace Text

theorem trimBy_append {p : CodePoint → Bool} {tail : Text} (h : ∀ c ∈ tail, p c) (t : Text) :
    (t ++ tail).trimBy p = t.trimBy p := by
  have htail : tail.reverse.dropWhile p = [] := by
    rw [List.dropWhile_eq_nil_iff]
    intro c hc
    exact h c (List.mem_reverse.mp hc)
  rw [trimBy, trimBy, List.dropWhile_append]
  split
  · rename_i hnil
    have hall : tail.dropWhile p = [] := List.dropWhile_eq_nil_iff.mpr h
    rw [List.isEmpty_iff] at hnil
    rw [hnil, hall]
  · rw [List.reverse_append, List.dropWhile_append, htail]
    rfl

end Text

namespace Frame

def asText (bytes : Bytes) : Text := bytes.map fun b => .ofNat b.toNat

private theorem val_ofByte (b : UInt8) : (CodePoint.ofNat b.toNat).val = b.toNat := by
  have hlt : b.toNat < 0x110000 := Nat.lt_trans b.toNat_lt (by decide)
  rw [CodePoint.ofNat, dif_pos hlt]

theorem ofByte_ne {b c : UInt8} (h : b ≠ c) :
    CodePoint.ofNat b.toNat ≠ CodePoint.ofNat c.toNat := by
  intro heq
  have hval := congrArg CodePoint.val heq
  rw [val_ofByte, val_ofByte] at hval
  exact h (UInt8.toNat_inj.mp hval)

/-- A header line: a name, a colon, a value and a line feed, all in ASCII. -/
structure HeaderLine where
  name : Bytes
  value : Bytes
  name_ascii : ∀ b ∈ name, b < 0x80
  value_ascii : ∀ b ∈ value, b < 0x80
  name_noFeed : 0x0a ∉ name
  value_noFeed : 0x0a ∉ value
  name_noColon : 0x3a ∉ name

namespace HeaderLine

def bytes (h : HeaderLine) : Bytes := h.name ++ 0x3a :: h.value ++ [0x0a]

def key (h : HeaderLine) : Text := (asText h.name).trim.toLower

def text (h : HeaderLine) : Text := (asText h.value).trim

def isLineEnd (c : CodePoint) : Bool := c.val == 0xd || c.val == 0xa

private theorem isBlank_of_isLineEnd {c : CodePoint} (h : isLineEnd c) : c.isBlank := by
  simp only [isLineEnd, Bool.or_eq_true, beq_iff_eq] at h
  rcases h with h | h <;> simp [CodePoint.isBlank, CodePoint.isWhite, h]

private theorem rdropWhile_append_cons {p : CodePoint → Bool} {c : CodePoint} (h : p c = false)
    (t u : Text) : (t ++ c :: u).rdropWhile p = t ++ c :: u.rdropWhile p := by
  rw [List.rdropWhile, List.rdropWhile, List.reverse_append, List.reverse_cons, List.append_assoc,
    List.dropWhile_append]
  split
  · rename_i hnil
    rw [List.isEmpty_iff] at hnil
    simp [hnil, h]
  · simp

private theorem trim_rdropWhile (t : Text) : Text.trim (t.rdropWhile isLineEnd) = t.trim := by
  have htail : ∀ c ∈ t.rtakeWhile isLineEnd, c.isBlank :=
    fun c hc => isBlank_of_isLineEnd (List.mem_rtakeWhile_imp hc)
  calc Text.trim (t.rdropWhile isLineEnd)
      = Text.trim (t.rdropWhile isLineEnd ++ t.rtakeWhile isLineEnd) :=
        (Text.trimBy_append htail _).symm
    _ = t.trim := by rw [List.rdropWhile_append_rtakeWhile]

private theorem asText_bytes (h : HeaderLine) :
    asText h.bytes =
      asText h.name ++ CodePoint.ofChar ':' :: (asText h.value ++ [CodePoint.ofNat 0xa]) := by
  simp only [asText, bytes, List.map_append, List.map_cons, List.map_nil, List.append_assoc,
    List.cons_append]
  rfl

private theorem name_ne_colon (h : HeaderLine) :
    ∀ c ∈ asText h.name, decide (c ≠ CodePoint.ofChar ':') = true := by
  intro c hc
  obtain ⟨b, hb, rfl⟩ := List.mem_map.mp hc
  have hne : b ≠ 0x3a := fun heq => h.name_noColon (heq ▸ hb)
  exact decide_eq_true (ofByte_ne hne)

private theorem bytes_ascii (h : HeaderLine) : h.bytes.any (0x80 ≤ ·) = false := by
  rw [List.any_eq_false]
  intro b hb
  simp only [bytes, List.mem_append, List.mem_cons, List.not_mem_nil, or_false] at hb
  rw [decide_eq_true_eq, UInt8.not_le]
  rcases hb with (hb | rfl | hb) | rfl
  · exact h.name_ascii b hb
  · decide
  · exact h.value_ascii b hb
  · decide

private theorem header_eq {line : Bytes} (hlast : line.getLast? = some 0x0a)
    (hascii : line.any (0x80 ≤ ·) = false) :
    header line =
      match ((asText line).rdropWhile isLineEnd).dropWhile (· ≠ CodePoint.ofChar ':') with
      | [] => .error (.malformed ((asText line).rdropWhile isLineEnd))
      | _ :: value => .ok (Text.toLower (Text.trim
          (((asText line).rdropWhile isLineEnd).takeWhile (· ≠ CodePoint.ofChar ':'))),
          Text.trim value) := by
  rw [header, if_neg (not_not.mpr hlast), hascii, if_neg Bool.false_ne_true]
  rfl

private theorem ended_of_header {line : Bytes} {e : Text × Text} (h : header line = .ok e) :
    line.getLast? = some 0x0a ∧ line.any (0x80 ≤ ·) = false := by
  rw [header] at h
  split at h
  · cases h
  · rename_i hlast
    split at h
    · cases h
    · rename_i hascii
      exact ⟨not_not.mp hlast, Bool.eq_false_iff.mpr hascii⟩

private theorem header_bytes (h : HeaderLine) : header h.bytes = .ok (h.key, h.text) := by
  have hlast : h.bytes.getLast? = some 0x0a := List.getLast?_concat
  have hcolon : isLineEnd (CodePoint.ofChar ':') = false := by decide
  have hstripped : (asText h.bytes).rdropWhile isLineEnd =
      asText h.name ++ CodePoint.ofChar ':' ::
        (asText h.value ++ [CodePoint.ofNat 0xa]).rdropWhile isLineEnd := by
    rw [asText_bytes, rdropWhile_append_cons hcolon]
  have hvalue : Text.trim (asText h.value ++ [CodePoint.ofNat 0xa]) = h.text :=
    Text.trimBy_append (by decide) _
  rw [header_eq hlast h.bytes_ascii, hstripped, List.dropWhile_append_of_pos h.name_ne_colon,
    List.takeWhile_append_of_pos h.name_ne_colon, List.dropWhile_cons_of_neg (by decide),
    List.takeWhile_cons_of_neg (by decide), List.append_nil]
  simp only [trim_rdropWhile, hvalue]
  rfl

theorem colon_mem_of_header {line : Bytes} {e : Text × Text} (h : header line = .ok e) :
    0x3a ∈ line := by
  by_contra hcolon
  have hnone : ∀ c ∈ (asText line).rdropWhile isLineEnd,
      decide (c ≠ CodePoint.ofChar ':') = true := by
    intro c hc
    obtain ⟨b, hb, rfl⟩ := List.mem_map.mp ((List.rdropWhile_prefix _ _).subset hc)
    have hne : b ≠ 0x3a := fun heq => hcolon (heq ▸ hb)
    exact decide_eq_true (ofByte_ne hne)
  obtain ⟨hlast, hascii⟩ := ended_of_header h
  rw [header_eq hlast hascii, List.dropWhile_eq_nil_iff.mpr hnone] at h
  cases h

private theorem exists_of_header {bs : Bytes} {e : Text × Text}
    (h : header (splitLine bs).1 = .ok e) :
    ∃ l : HeaderLine, (splitLine bs).1 = l.bytes ∧ e = (l.key, l.text) := by
  obtain ⟨hlast, hascii⟩ := ended_of_header h
  obtain ⟨line, hline, hfeed⟩ := exists_of_splitLine hlast
  have hcolon : 0x3a ∈ line := by
    have hmem := colon_mem_of_header h
    rw [hline, List.mem_append, List.mem_singleton] at hmem
    exact hmem.resolve_right (by decide)
  obtain ⟨name, value, rfl, hname⟩ := List.eq_append_cons_of_mem hcolon
  rw [hline, List.any_eq_false] at hascii
  have hlow : ∀ b ∈ name ++ 0x3a :: value, b < 0x80 := by
    intro b hb
    simpa using hascii b (List.mem_append_left _ hb)
  rw [List.mem_append, List.mem_cons, not_or, not_or] at hfeed
  let l : HeaderLine := {
    name, value
    name_ascii := fun b hb => hlow b (List.mem_append_left _ hb)
    value_ascii := fun b hb => hlow b (List.mem_append_right _ (List.mem_cons_of_mem _ hb))
    name_noFeed := hfeed.1
    value_noFeed := hfeed.2.2
    name_noColon := hname }
  have hbytes : (splitLine bs).1 = l.bytes := by
    rw [hline]
    rfl
  rw [hbytes, header_bytes] at h
  exact ⟨l, hbytes, (Except.ok.inj h).symm⟩

def contentLength (value : Bytes) (hascii : ∀ b ∈ value, b < 0x80) (hfeed : 0x0a ∉ value) :
    HeaderLine where
  name := [0x43, 0x6f, 0x6e, 0x74, 0x65, 0x6e, 0x74, 0x2d, 0x4c, 0x65, 0x6e, 0x67, 0x74, 0x68]
  value := value
  name_ascii := by decide +kernel
  value_ascii := hascii
  name_noFeed := by decide
  value_noFeed := hfeed
  name_noColon := by decide

end HeaderLine

/-- A line feed, alone or behind a carriage return. -/
inductive BlankLine where
  | feed
  | returnFeed
deriving DecidableEq

def BlankLine.bytes : BlankLine → Bytes
  | .feed => [0x0a]
  | .returnFeed => [0x0d, 0x0a]

private theorem isBlankLine_bytes (b : BlankLine) : isBlankLine b.bytes = true := by
  cases b <;> rfl

private theorem exists_of_isBlankLine {line : Bytes} (h : isBlankLine line = true) :
    ∃ b : BlankLine, line = b.bytes := by
  simp only [isBlankLine, Bool.or_eq_true, decide_eq_true_eq] at h
  rcases h with rfl | rfl
  · exact ⟨.returnFeed, rfl⟩
  · exact ⟨.feed, rfl⟩

private theorem splitLine_blankLine (b : BlankLine) (rest : Bytes) :
    splitLine (b.bytes ++ rest) = (b.bytes, rest) := by
  cases b <;> rfl

private theorem splitLine_headerLine (l : HeaderLine) (rest : Bytes) :
    splitLine (l.bytes ++ rest) = (l.bytes, rest) := by
  have hfeed : 0x0a ∉ l.name ++ 0x3a :: l.value := by
    rw [List.mem_append, List.mem_cons, not_or, not_or]
    exact ⟨l.name_noFeed, by decide, l.value_noFeed⟩
  rw [HeaderLine.bytes, List.append_assoc]
  exact splitLine_of_not_mem hfeed rest

private theorem isBlankLine_headerLine (l : HeaderLine) : isBlankLine l.bytes = false := by
  rw [Bool.eq_false_iff]
  intro h
  obtain ⟨b, hb⟩ := exists_of_isBlankLine h
  have hcolon : 0x3a ∈ b.bytes := hb ▸ HeaderLine.colon_mem_of_header l.header_bytes
  revert hcolon
  cases b <;> decide

/-- The headers that are kept when some more lines are read. -/
def gather (seen : Entries Text) (lines : List HeaderLine) : Entries Text :=
  lines.foldl (fun es l => Entries.insert l.key l.text es) seen

private theorem headers_blankLine (b : BlankLine) (rest : Bytes) :
    headers [] (b.bytes ++ rest) = headers [] rest := by
  have hne : b.bytes ≠ [] := by cases b <;> exact nofun
  rw [headers, splitLine_blankLine]
  simp only [if_neg hne, isBlankLine_bytes, if_true]

private theorem headers_close {seen : Entries Text} (h : seen ≠ []) (b : BlankLine) (rest : Bytes) :
    headers seen (b.bytes ++ rest) = (.ok (some seen), rest) := by
  have hne : b.bytes ≠ [] := by cases b <;> exact nofun
  rw [headers, splitLine_blankLine]
  simp only [if_neg hne, isBlankLine_bytes, if_true, if_neg h]

private theorem headers_headerLine (seen : Entries Text) (l : HeaderLine) (rest : Bytes) :
    headers seen (l.bytes ++ rest) = headers (Entries.insert l.key l.text seen) rest := by
  have hne : l.bytes ≠ [] := by
    intro h
    have hcolon := HeaderLine.colon_mem_of_header l.header_bytes
    rw [h] at hcolon
    cases hcolon
  rw [headers, splitLine_headerLine]
  simp only [if_neg hne, isBlankLine_headerLine, Bool.false_eq_true, if_false, l.header_bytes]

theorem headers_blankLines (bs : List BlankLine) (rest : Bytes) :
    headers [] (bs.flatMap BlankLine.bytes ++ rest) = headers [] rest := by
  induction bs with
  | nil => rfl
  | cons b bs ih => rw [List.flatMap_cons, List.append_assoc, headers_blankLine, ih]

private theorem headers_headerLines (seen : Entries Text) (lines : List HeaderLine) (rest : Bytes) :
    headers seen (lines.flatMap HeaderLine.bytes ++ rest) = headers (gather seen lines) rest := by
  induction lines generalizing seen with
  | nil => rfl
  | cons l lines ih =>
    rw [List.flatMap_cons, List.append_assoc, headers_headerLine, ih]
    rfl

private theorem gather_ne_nil {seen : Entries Text} {lines : List HeaderLine}
    (h : seen ≠ [] ∨ lines ≠ []) : gather seen lines ≠ [] := by
  induction lines generalizing seen with
  | nil => exact h.resolve_right (not_not.mpr rfl)
  | cons l lines ih => exact ih (.inl (Entries.insert_ne_nil _ _ _))

private theorem find?_gather (key : Text) (lines : List HeaderLine) :
    Entries.find? key (gather [] lines) =
      (lines.filter (·.key = key)).getLast?.map HeaderLine.text := by
  induction lines using List.reverseRecOn with
  | nil => rfl
  | append_singleton lines l ih =>
    have hgather : gather [] (lines ++ [l]) = Entries.insert l.key l.text (gather [] lines) :=
      List.foldl_append ..
    rw [hgather, List.filter_append]
    by_cases hkey : l.key = key
    · have hlast : [l].filter (·.key = key) = [l] :=
        List.filter_cons_of_pos (decide_eq_true hkey)
      rw [hlast, List.getLast?_concat, ← hkey, Entries.find?_insert_self]
      rfl
    · have hnone : [l].filter (·.key = key) = [] :=
        List.filter_cons_of_neg (by simpa using hkey)
      rw [hnone, List.append_nil, Entries.find?_insert_of_ne hkey, ih]

structure Head where
  blanks : List BlankLine
  lines : List HeaderLine
  close : BlankLine
  lines_ne_nil : lines ≠ []

namespace Head

def bytes (h : Head) : Bytes :=
  h.blanks.flatMap BlankLine.bytes ++ h.lines.flatMap HeaderLine.bytes ++ h.close.bytes

/-- What the last header of the name `Content-Length` says. -/
def length? (h : Head) : Option Text :=
  (h.lines.filter fun l => l.key = ("content-length" : Text)).getLast?.map HeaderLine.text

theorem headers_bytes (h : Head) (rest : Bytes) :
    headers [] (h.bytes ++ rest) = (.ok (some (gather [] h.lines)), rest) := by
  rw [bytes, List.append_assoc, List.append_assoc, headers_blankLines, headers_headerLines,
    headers_close (gather_ne_nil (.inr h.lines_ne_nil))]

theorem find?_length (h : Head) :
    Entries.find? "content-length" (gather [] h.lines) = h.length? := find?_gather _ _

end Head

/-- Headers are found at a head only. With some headers read before, what is left of the head begins
with a header line or with the blank line behind them. -/
theorem exists_parts_of_headers {seen hs : Entries Text} {bytes rest : Bytes}
    (h : headers seen bytes = (.ok (some hs), rest)) :
    ∃ (blanks : List BlankLine) (lines : List HeaderLine) (close : BlankLine),
      bytes = blanks.flatMap BlankLine.bytes ++ lines.flatMap HeaderLine.bytes ++ close.bytes ++
          rest ∧
        (seen ≠ [] → blanks = []) ∧ (seen = [] → lines ≠ []) := by
  fun_induction headers seen bytes with
  | case1 => cases h
  | case2 => cases h
  | case3 bytes line rest' hne hblank ih =>
    obtain ⟨b, hb⟩ := exists_of_isBlankLine hblank
    obtain ⟨blanks, lines, close, hrest, -, hlines⟩ := ih h
    refine ⟨b :: blanks, lines, close, ?_, fun hn => absurd rfl hn, hlines⟩
    rw [← splitLine_append bytes, List.flatMap_cons]
    simp only [List.append_assoc] at hrest ⊢
    exact congrArg₂ _ hb hrest
  | case4 seen bytes line rest' hne hblank hseen =>
    obtain ⟨b, hb⟩ := exists_of_isBlankLine hblank
    have hrest : (splitLine bytes).2 = rest := congrArg Prod.snd h
    refine ⟨[], [], b, ?_, fun _ => rfl, fun hn => absurd hn hseen⟩
    rw [← splitLine_append bytes]
    exact congrArg₂ _ hb hrest
  | case5 => cases h
  | case6 seen bytes line rest' hne hblank name value hheader ih =>
    -- There is a header now, so the rest of the head begins with no more blank lines to skip.
    obtain ⟨l, hl, -⟩ := HeaderLine.exists_of_header hheader
    obtain ⟨blanks, lines, close, hrest, hblanks, -⟩ := ih h
    cases hblanks (Entries.insert_ne_nil _ _ _)
    refine ⟨[], l :: lines, close, ?_, fun _ => rfl, fun _ => List.cons_ne_nil l lines⟩
    rw [← splitLine_append bytes, List.flatMap_nil, List.nil_append, List.flatMap_cons]
    simp only [List.flatMap_nil, List.nil_append, List.append_assoc] at hrest ⊢
    exact congrArg₂ _ hl hrest

theorem exists_head_of_headers {hs : Entries Text} {bytes rest : Bytes}
    (h : headers [] bytes = (.ok (some hs), rest)) :
    ∃ head : Head, bytes = head.bytes ++ rest ∧ hs = gather [] head.lines := by
  obtain ⟨blanks, lines, close, hbytes, -, hlines⟩ := exists_parts_of_headers h
  let head : Head := { blanks, lines, close, lines_ne_nil := hlines rfl }
  have hhead : bytes = head.bytes ++ rest := hbytes
  rw [hhead, head.headers_bytes] at h
  cases h
  exact ⟨head, hhead, rfl⟩

end Frame

end RubyLanguageServer
