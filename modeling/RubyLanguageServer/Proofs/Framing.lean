import RubyLanguageServer.Proofs.Headers
import RubyLanguageServer.Proofs.Printing
/-!
# Frames in step

A frame is a head that declares a length, and as many bytes of content. Reading a sequence of frames
gives the content of one after the other and leaves the source exactly behind each, in whatever
portions it delivers. A reading that gets as far as the content has taken exactly one frame.
-/
namespace RubyLanguageServer

theorem Utf8.decode_ascii {bytes : Bytes} (h : ∀ b ∈ bytes, b < 0x80) :
    decode bytes = .ok (Frame.asText bytes) := by
  suffices ∀ position, decodeFrom position bytes = .ok (Frame.asText bytes) from this 0
  induction bytes with
  | nil =>
    intro position
    rw [decodeFrom]
    rfl
  | cons b bs ih =>
    intro position
    rw [List.forall_mem_cons] at h
    have hhead : head b bs = .scalar (.ofNat b.toNat) 0 := if_pos h.1
    rw [decodeFrom, hhead]
    simp only [List.drop_zero, ih h.2, ok_bind]
    rfl

namespace Source

theorem read_delivers (n : Nat) (s : Source) :
    s.bytes = (s.read n).1 ++ (s.read n).2.bytes ∧ (s.read n).1.length ≤ n ∧
      ((s.read n).1 = [] → n = 0 ∨ s.bytes = []) := by
  rw [read]
  split
  · refine ⟨(List.take_append_drop _ _).symm, List.length_take_le _ _, ?_⟩
    exact List.take_eq_nil_iff.mp
  · rename_i size _ _
    refine ⟨(List.take_append_drop _ _).symm, ?_, ?_⟩
    · exact Nat.le_trans (List.length_take_le _ _) (Nat.min_le_left _ _)
    · intro h
      refine (List.take_eq_nil_iff.mp h).imp_left ?_
      omega

/-- The pace does not tell in what several reads deliver together. -/
theorem readExact_bytes (n : Nat) (s : Source) :
    (s.readExact n).1 = s.bytes.take n ∧ (s.readExact n).2.bytes = s.bytes.drop n := by
  fun_induction readExact n s with
  | case1 s => exact ⟨rfl, rfl⟩
  | case2 n s hn s' hread =>
    obtain ⟨hbytes, -, hend⟩ := s.read_delivers n
    rw [hread] at hbytes hend
    have hnil : s.bytes = [] := (hend rfl).resolve_left hn
    have hrest : s'.bytes = [] := hbytes.symm.trans hnil
    rw [hnil, hrest, List.take_nil, List.drop_nil]
    exact ⟨rfl, rfl⟩
  | case3 n s hn b bs s' hread more s'' hmore ih =>
    obtain ⟨hbytes, hlen, -⟩ := s.read_delivers n
    rw [hread] at hbytes hlen
    rw [hmore] at ih
    have hfirst : (b :: bs).length ≤ n := hlen
    rw [hbytes, List.take_append, List.drop_append, List.take_of_length_le hfirst,
      List.drop_of_length_le hfirst]
    exact ⟨congrArg (b :: bs ++ ·) ih.1, ih.2⟩

end Source

/-- The number that ASCII digits denote: the sum of their values times powers of ten. -/
def decimal (digits : Text) : Nat := Nat.ofDigits 10 (digits.reverse.map fun c => c.val - 0x30)

theorem value_eq_decimal {digits : Text} (h : ∀ c ∈ digits, c.isDigit = true) :
    Numeral.value digits = decimal digits := by
  induction digits using List.reverseRecOn with
  | nil => rfl
  | append_singleton ds c ih =>
    rw [List.forall_mem_append] at h
    have hdigit : c.isDigit = true := h.2 c (List.mem_singleton_self c)
    have hlow : c.val < 0x80 := by
      simp only [CodePoint.isDigit, Bool.and_eq_true, decide_eq_true_eq] at hdigit
      omega
    have hvalue : c.decimalValue? = some (c.val - 0x30) := by
      rw [CodePoint.decimalValue?, if_pos hlow, if_pos hdigit]
    rw [Numeral.value_append, ih h.1, hvalue, decimal, decimal, List.reverse_concat, List.map_cons,
      Nat.ofDigits_cons, Option.getD_some]
    omega

namespace Frame

namespace Head

/-- The length in the head is given by these digits. -/
structure Declares (h : Head) (digits : Text) : Prop where
  length?_eq : h.length? = some digits
  ne_nil : digits ≠ []
  isDigit : ∀ c ∈ digits, c.isDigit = true

theorem contentLength_of_declares {h : Head} {digits : Text} (hd : h.Declares digits) :
    contentLength (gather [] h.lines) =
      match Numeral.read digits with
      | .error e => .excess e
      | .ok n => if n ≤ maxLength then .ok n else .bad (.tooLong n) := by
  have hwell : (digits = [] || !digits.all CodePoint.isDigit) = false := by
    rw [List.all_eq_true.mpr hd.isDigit, decide_eq_false hd.ne_nil]
    rfl
  rw [contentLength, h.find?_length, hd.length?_eq]
  cases hread : Numeral.read digits with
  | error e => simp only [hread, hwell, Bool.false_eq_true, if_false]
  | ok n => simp only [hread, hwell, Bool.false_eq_true, if_false]

theorem declares_of_contentLength {h : Head}
    (hgood : ∀ e, contentLength (gather [] h.lines) ≠ .bad e) : ∃ digits, h.Declares digits := by
  rw [contentLength, h.find?_length] at hgood
  cases hlen : h.length? with
  | none =>
    rw [hlen] at hgood
    exact absurd rfl (hgood .noLength)
  | some digits =>
    rw [hlen] at hgood
    refine ⟨digits, hlen, ?_, ?_⟩
    · rintro rfl
      exact hgood (.badLength []) rfl
    · intro c hc
      by_contra hdigit
      have hall : digits.all CodePoint.isDigit = false :=
        List.all_eq_false.mpr ⟨c, hc, hdigit⟩
      simp only [hall, Bool.not_false, Bool.or_true, if_true] at hgood
      exact hgood _ rfl

private theorem read_of_ok {h : Head} {n : Nat} (hlen : contentLength (gather [] h.lines) = .ok n)
    (rest : Bytes) (pace : List Nat) :
    (read ⟨h.bytes ++ rest, pace⟩).1 =
        (if (rest.take n).length < n then .broken (.endInContent n (rest.take n).length)
          else reading (rest.take n)) ∧
      (read ⟨h.bytes ++ rest, pace⟩).2.bytes = rest.drop n := by
  obtain ⟨hcontent, hrest⟩ := Source.readExact_bytes n ⟨rest, pace⟩
  rw [read, h.headers_bytes]
  simp only [hlen, ← hcontent, ← hrest]
  split <;> exact ⟨rfl, rfl⟩

theorem read_of_bad {h : Head} {e : FramingError}
    (hlen : contentLength (gather [] h.lines) = .bad e) (rest : Bytes) (pace : List Nat) :
    (read ⟨h.bytes ++ rest, pace⟩).1 = .broken e := by
  rw [read, h.headers_bytes]
  simp only [hlen]

theorem read_of_excess {h : Head} {e : Numeral.Excess}
    (hlen : contentLength (gather [] h.lines) = .excess e) (rest : Bytes) (pace : List Nat) :
    (read ⟨h.bytes ++ rest, pace⟩).1 = .excess e := by
  rw [read, h.headers_bytes]
  simp only [hlen]

end Head

structure Block extends Head where
  digits : Text
  body : Bytes
  declares : toHead.Declares digits
  digits_le : digits.length ≤ 4300
  denotes : decimal digits = body.length
  body_le : body.length ≤ 64 * 1024 * 1024

namespace Block

def bytes (f : Block) : Bytes := f.toHead.bytes ++ f.body

private theorem contentLength_lines (f : Block) :
    contentLength (gather [] f.lines) = .ok f.body.length := by
  have hread : Numeral.read f.digits = .ok f.body.length := by
    have hle : f.digits.length ≤ Numeral.limit := f.digits_le
    rw [Numeral.read, if_pos hle, value_eq_decimal f.declares.isDigit, f.denotes]
  rw [Head.contentLength_of_declares f.declares, hread]
  exact if_pos f.body_le

/-- The step of a run: one reading takes one frame, and tells what its content gives. -/
theorem read_bytes (f : Block) {s : Source} {rest : Bytes} (h : s.bytes = f.bytes ++ rest) :
    (read s).1 = reading f.body ∧ (read s).2.bytes = rest := by
  have hs : s = ⟨f.toHead.bytes ++ (f.body ++ rest), s.pace⟩ := by
    rw [← List.append_assoc]
    exact congrArg (Source.mk · s.pace) h
  obtain ⟨hreading, hrest⟩ := Head.read_of_ok f.contentLength_lines (f.body ++ rest) s.pace
  rw [← hs, List.take_left, if_neg (Nat.lt_irrefl _)] at hreading
  rw [← hs, List.drop_left] at hrest
  exact ⟨hreading, hrest⟩

end Block

/-- A reading that finds more than the end, and no framing error, has found a head. -/
theorem exists_head_of_read {s : Source} (hopen : (read s).1 ≠ .closed)
    (hwhole : ∀ e, (read s).1 ≠ .broken e) :
    ∃ (head : Head) (rest : Bytes), s = ⟨head.bytes ++ rest, s.pace⟩ := by
  rcases hheaders : headers [] s.bytes with ⟨_ | _ | hs, rest⟩
  · exact absurd (by rw [read, hheaders]) (hwhole _)
  · exact absurd (by rw [read, hheaders]) hopen
  · obtain ⟨head, hbytes, -⟩ := exists_head_of_headers hheaders
    exact ⟨head, rest, congrArg (Source.mk · s.pace) hbytes⟩

private theorem exists_digits_of_ok {head : Head} {n : Nat}
    (hlen : contentLength (gather [] head.lines) = .ok n) :
    ∃ digits, head.Declares digits ∧ digits.length ≤ 4300 ∧ decimal digits = n ∧
      n ≤ 64 * 1024 * 1024 := by
  obtain ⟨digits, hd⟩ := Head.declares_of_contentLength fun e he => nomatch hlen.symm.trans he
  rw [Head.contentLength_of_declares hd, Numeral.read, value_eq_decimal hd.isDigit] at hlen
  refine ⟨digits, hd, ?_⟩
  split at hlen
  · cases hlen
  · rename_i m hread
    split at hread
    · rename_i hdigits
      cases hread
      split at hlen
      · rename_i hmax
        cases hlen
        exact ⟨hdigits, rfl, hmax⟩
      · cases hlen
    · cases hread

theorem exists_block_of_ok {head : Head} {n : Nat}
    (hlen : contentLength (gather [] head.lines) = .ok n) {rest : Bytes} {pace : List Nat}
    (hwhole : ∀ e, (read ⟨head.bytes ++ rest, pace⟩).1 ≠ .broken e) :
    ∃ f : Block, head.bytes ++ rest = f.bytes ++ rest.drop n ∧ f.body = rest.take n := by
  obtain ⟨hreading, -⟩ := Head.read_of_ok hlen rest pace
  obtain ⟨digits, hd, hdigits, hdenotes, hmax⟩ := exists_digits_of_ok hlen
  have hbody : (rest.take n).length = n := by
    have hle := List.length_take_le n rest
    have hnot : ¬ (rest.take n).length < n := fun hlt =>
      hwhole _ (hreading.trans (if_pos hlt))
    omega
  refine ⟨{ head with
    digits, body := rest.take n, declares := hd, digits_le := hdigits
    denotes := hdenotes.trans hbody.symm
    body_le := Nat.le_trans (Nat.le_of_eq hbody) hmax }, ?_, rfl⟩
  rw [Block.bytes, List.append_assoc, List.take_append_drop]

theorem exists_block_of_read {s : Source} (hopen : (read s).1 ≠ .closed)
    (hwhole : ∀ e, (read s).1 ≠ .broken e) (hlow : ∀ e, (read s).1 ≠ .excess e) :
    ∃ f : Block, s.bytes = f.bytes ++ (read s).2.bytes := by
  obtain ⟨head, rest, hs⟩ := exists_head_of_read hopen hwhole
  cases hlen : contentLength (gather [] head.lines) with
  | bad e => exact absurd (hs ▸ Head.read_of_bad hlen rest s.pace) (hwhole e)
  | excess e => exact absurd (hs ▸ Head.read_of_excess hlen rest s.pace) (hlow e)
  | ok n =>
    rw [hs] at hwhole ⊢
    obtain ⟨f, hbytes, -⟩ := exists_block_of_ok hlen hwhole
    rw [(Head.read_of_ok hlen rest s.pace).2]
    exact ⟨f, hbytes⟩

theorem read_blankLines (bs : List BlankLine) {s : Source}
    (h : s.bytes = bs.flatMap BlankLine.bytes) : (read s).1 = .closed ∧ (read s).2.bytes = [] := by
  have hheaders : headers [] s.bytes = (.ok none, []) := by
    rw [h, ← List.append_nil (bs.flatMap _), headers_blankLines, headers_nil [] rfl]
  rw [read, hheaders]
  exact ⟨rfl, rfl⟩

def after : Nat → Source → Source
  | 0, s => s
  | n + 1, s => after n (read s).2

theorem after_blocks {frames : List Block} {tail : Bytes} {s : Source}
    (h : s.bytes = frames.flatMap Block.bytes ++ tail) {n : Nat} (hn : n ≤ frames.length) :
    (after n s).bytes = (frames.drop n).flatMap Block.bytes ++ tail := by
  induction n generalizing frames s with
  | zero => exact h
  | succ n ih =>
    cases frames with
    | nil => exact absurd hn (Nat.not_succ_le_zero n)
    | cons f frames =>
      rw [List.flatMap_cons, List.append_assoc] at h
      exact ih (f.read_bytes h).2 (Nat.le_of_succ_le_succ hn)

theorem after_blankLines {bs : List BlankLine} {s : Source}
    (h : s.bytes = bs.flatMap BlankLine.bytes) (n : Nat) :
    ∃ bs' : List BlankLine, (after n s).bytes = bs'.flatMap BlankLine.bytes := by
  induction n generalizing bs s with
  | zero => exact ⟨bs, h⟩
  | succ n ih =>
    have hend : (read s).2.bytes = ([] : List BlankLine).flatMap BlankLine.bytes :=
      (read_blankLines bs h).2
    exact ih hend

theorem after_add (n k : Nat) (s : Source) : after (n + k) s = after k (after n s) := by
  induction n generalizing s with
  | zero =>
    rw [Nat.zero_add]
    rfl
  | succ n ih =>
    rw [Nat.succ_add]
    exact ih _

/-- Frames are read in step: whatever one frame holds, the next reading begins behind it, and a
content is never taken from anything but a frame. -/
theorem read_in_step :
    (∀ (frames : List Block) (blanks : List BlankLine) (s : Source),
      s.bytes = frames.flatMap Block.bytes ++ blanks.flatMap BlankLine.bytes →
        (∀ i (hi : i < frames.length),
          (read (after i s)).1 = reading frames[i].body ∧
            (after (i + 1) s).bytes =
              (frames.drop (i + 1)).flatMap Block.bytes ++ blanks.flatMap BlankLine.bytes) ∧
        ∀ i, frames.length ≤ i → (read (after i s)).1 = .closed) ∧
    ∀ s : Source,
      ((∃ m, (read s).1 = .message m) ∨ ∃ content e, (read s).1 = .undecodable content e) →
      ∃ f : Block, s.bytes = f.bytes ++ (read s).2.bytes ∧ (read s).1 = reading f.body := by
  refine ⟨fun frames blanks s h => ⟨fun i hi => ⟨?_, after_blocks h hi⟩, fun i hi => ?_⟩, ?_⟩
  · have hbytes := after_blocks h (Nat.le_of_lt hi)
    rw [List.drop_eq_getElem_cons hi, List.flatMap_cons, List.append_assoc] at hbytes
    exact (frames[i].read_bytes hbytes).1
  · have hend := after_blocks h (Nat.le_refl _)
    rw [List.drop_length, List.flatMap_nil, List.nil_append] at hend
    obtain ⟨bs, hbs⟩ := after_blankLines hend (i - frames.length)
    rw [← after_add, Nat.add_sub_cancel' hi] at hbs
    exact (read_blankLines bs hbs).1
  · rintro s (⟨m, hm⟩ | ⟨content, e, he⟩)
    all_goals
      obtain ⟨f, hf⟩ := exists_block_of_read (s := s) (by simp [*]) (by simp [*]) (by simp [*])
      exact ⟨f, hf, (f.read_bytes hf).1⟩

/-- A frame with two lengths, of which the second counts, and content that is no message. -/
def twiceDeclared : Block where
  blanks := [.returnFeed, .feed]
  lines :=
    [.contentLength [0x20, 0x39, 0x39, 0x0d] (by decide +kernel) (by decide),
     { name := [0x63, 0x6f, 0x6e, 0x74, 0x65, 0x6e, 0x74, 0x2d, 0x6c, 0x65, 0x6e, 0x67, 0x74, 0x68,
         0x20]
       value := [0x30, 0x32]
       name_ascii := by decide +kernel
       value_ascii := by decide +kernel
       name_noFeed := by decide
       value_noFeed := by decide
       name_noColon := by decide }]
  close := .feed
  lines_ne_nil := nofun
  digits := "02"
  body := [0x5b, 0x5d]
  declares := ⟨by decide, by decide, by decide⟩
  digits_le := by decide
  denotes := by decide
  body_le := by decide

theorem read_in_step_twiceDeclared :
    let s : Source := ⟨twiceDeclared.bytes ++ twiceDeclared.bytes ++ [0x0a], [7, 1, 1]⟩
    (read s).1 = .undecodable [0x5b, 0x5d] .notObject ∧
      (read (after 1 s)).1 = .undecodable [0x5b, 0x5d] .notObject ∧
      (read (after 2 s)).1 = .closed ∧
      ∃ f : Block, s.bytes = f.bytes ++ (read s).2.bytes ∧ (read s).1 = reading f.body := by
  intro s
  obtain ⟨hframes, hend⟩ := read_in_step.1 [twiceDeclared, twiceDeclared] [.feed] s
    (by simp only [s, List.flatMap_cons, List.flatMap_nil, List.append_nil, List.append_assoc]
        rfl)
  have hreading : reading [0x5b, 0x5d] = .undecodable [0x5b, 0x5d] .notObject := by cbv
  have hfirst : (read s).1 = .undecodable [0x5b, 0x5d] .notObject :=
    (hframes 0 (by decide)).1.trans hreading
  have hsecond := (hframes 1 (by decide)).1.trans hreading
  exact ⟨hfirst, hsecond, hend 2 (by decide), read_in_step.2 s (.inr ⟨_, _, hfirst⟩)⟩

end Frame

end RubyLanguageServer
