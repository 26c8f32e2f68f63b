import RubyLanguageServer.Text.Utf8
/-!
# Byte sources

A source holds the bytes still to come. A line is read as a whole; a read of several bytes may
deliver fewer of them, as the pace of the source says, but at least one while there are any.
-/
namespace RubyLanguageServer

/-- The bytes to come, and the sizes of the portions that the next reads deliver at most. Without a
size a read delivers all that was asked for. -/
structure Source where
  bytes : Bytes
  pace : List Nat := []
deriving DecidableEq, Repr

/-- The bytes up to and with the first line feed, and those behind it. -/
def splitLine : Bytes → Bytes × Bytes
  | [] => ([], [])
  | b :: bs =>
    if b = 0x0a then ([b], bs)
    else
      let (line, rest) := splitLine bs
      (b :: line, rest)

theorem splitLine_append (bs : Bytes) : (splitLine bs).1 ++ (splitLine bs).2 = bs := by
  induction bs with
  | nil => rfl
  | cons b bs ih =>
    rw [splitLine]
    split
    · rfl
    · simpa using ih

theorem splitLine_eq_nil {bs : Bytes} (h : (splitLine bs).1 = []) : bs = [] := by
  cases bs with
  | nil => rfl
  | cons b bs =>
    rw [splitLine] at h
    split at h <;> simp at h

theorem splitLine_length_lt {bs : Bytes} (h : (splitLine bs).1 ≠ []) :
    (splitLine bs).2.length < bs.length := by
  have happend := congrArg List.length (splitLine_append bs)
  have hpos := List.length_pos_iff.mpr h
  rw [List.length_append] at happend
  omega

theorem splitLine_length_le (bs : Bytes) : (splitLine bs).2.length ≤ bs.length := by
  have happend := congrArg List.length (splitLine_append bs)
  rw [List.length_append] at happend
  omega

namespace Source

/-- The next bytes, at most as many as asked for. -/
def read (n : Nat) (s : Source) : Bytes × Source :=
  match s.pace with
  | [] => (s.bytes.take n, { s with bytes := s.bytes.drop n })
  | size :: pace =>
    let portion := min n (max 1 size)
    (s.bytes.take portion, ⟨s.bytes.drop portion, pace⟩)

/-- The next `n` bytes by as many reads as it takes, and fewer only at the end of the source. -/
def readExact (n : Nat) (s : Source) : Bytes × Source :=
  if n = 0 then ([], s)
  else
    match s.read n with
    | ([], s) => ([], s)
    | (b :: bs, s) =>
      let (more, s) := readExact (n - (bs.length + 1)) s
      (b :: bs ++ more, s)
termination_by n
decreasing_by omega

private theorem read_length_le (n : Nat) (s : Source) :
    (s.read n).2.bytes.length ≤ s.bytes.length := by
  unfold read
  split <;> simp only [List.length_drop] <;> omega

theorem readExact_length_le (n : Nat) (s : Source) :
    (s.readExact n).2.bytes.length ≤ s.bytes.length := by
  fun_induction readExact n s with
  | case1 s => exact Nat.le_refl _
  | case2 n s _ s' h => simpa [h] using s.read_length_le n
  | case3 n s _ b bs s' h more s'' h' ih =>
    have hread := s.read_length_le n
    rw [h] at hread
    rw [h'] at ih
    exact Nat.le_trans ih hread

end Source

end RubyLanguageServer
