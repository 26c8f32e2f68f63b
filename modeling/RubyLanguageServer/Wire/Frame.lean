import RubyLanguageServer.Text.Blank
import RubyLanguageServer.Text.Entries
import RubyLanguageServer.Text.Quoted
import RubyLanguageServer.Wire.Message
import RubyLanguageServer.Wire.Source
/-!
# Frames

A frame is a block of header lines, a blank line, and as many bytes of content as the header
`Content-Length` says. Blank lines before a frame are skipped. Every reading either finds the source
at its end or takes at least one byte from it.
-/
namespace RubyLanguageServer

namespace Frame

def maxLength : Nat := 64 * 1024 * 1024

inductive FramingError where
  | endInHeaders
  | endInLine
  | notAscii (line : Bytes)
  | malformed (line : Text)
  | noLength
  | badLength (raw : Text)
  | tooLong (length : Nat)
  | endInContent (expected got : Nat)
deriving DecidableEq, Repr

def FramingError.message : FramingError → Text
  | .endInHeaders => "Unexpected end of stream inside header block"
  | .endInLine => "Unexpected end of stream inside header line"
  | .notAscii line => "Header line is not ASCII: " ++ Text.quotedBytes line
  | .malformed line => "Malformed header line: " ++ line.quoted
  | .noLength => "Missing Content-Length header"
  | .badLength raw => "Invalid Content-Length: " ++ raw.quoted
  | .tooLong length =>
    "Content-Length " ++ Numeral.ofNat length ++ " exceeds the " ++ Numeral.ofNat maxLength ++
      " byte limit"
  | .endInContent expected got =>
    "Unexpected end of stream: expected " ++ Numeral.ofNat expected ++ " content bytes, got " ++
      Numeral.ofNat got

/-- A line feed, alone or behind a carriage return. -/
def isBlankLine (line : Bytes) : Bool := line = [0x0d, 0x0a] || line = [0x0a]

/-- The name, trimmed and in small letters, and the trimmed value of a header line. -/
def header (line : Bytes) : Except FramingError (Text × Text) :=
  if line.getLast? ≠ some 0x0a then .error .endInLine
  else if line.any (0x80 ≤ ·) then .error (.notAscii line)
  else
    let isLineEnd (c : CodePoint) : Bool := c.val == 0xd || c.val == 0xa
    let all : Text := line.map fun b => .ofNat b.toNat
    let text := (all.reverse.dropWhile isLineEnd).reverse
    match text.dropWhile (· ≠ CodePoint.ofChar ':') with
    | [] => .error (.malformed text)
    | _ :: value =>
      let name : Text := text.takeWhile (· ≠ CodePoint.ofChar ':')
      .ok (name.trim.toLower, Text.trim value)

/-- The headers up to and with the blank line behind them, after those already read; no headers at
the end of the bytes. -/
def headers (seen : Entries Text) (bytes : Bytes) :
    Except FramingError (Option (Entries Text)) × Bytes :=
  let line := (splitLine bytes).1
  let rest := (splitLine bytes).2
  if line = [] then
    if seen = [] then (.ok none, rest) else (.error .endInHeaders, rest)
  else if isBlankLine line then
    if seen = [] then headers [] rest else (.ok (some seen), rest)
  else
    match header line with
    | .error e => (.error e, rest)
    | .ok (name, value) => headers (Entries.insert name value seen) rest
termination_by bytes.length
decreasing_by all_goals exact splitLine_length_lt (by assumption)

/-- What becomes of a content length. -/
inductive Length where
  | ok (n : Nat)
  | bad (e : FramingError)
  | excess (e : Numeral.Excess)
deriving DecidableEq, Repr

def contentLength (hs : Entries Text) : Length :=
  match Entries.find? "content-length" hs with
  | none => .bad .noLength
  | some raw =>
    if raw = [] || !raw.all CodePoint.isDigit then .bad (.badLength raw)
    else
      match Numeral.read raw with
      | .error e => .excess e
      | .ok n => if n ≤ maxLength then .ok n else .bad (.tooLong n)

end Frame

/-- What one reading finds: the end of the source, a message, bytes that are no frame, a frame
whose content is no message, or a numeral with too many digits. -/
inductive Reading where
  | closed
  | message (m : Message)
  | broken (e : Frame.FramingError)
  | undecodable (content : Bytes) (e : Message.DecodeError)
  | excess (e : Numeral.Excess)
deriving Repr

namespace Frame

def reading (content : Bytes) : Reading :=
  match Message.decode content with
  | .ok m => .message m
  | .error (.undecodable e) => .undecodable content e
  | .error (.excess e) => .excess e

def read (s : Source) : Reading × Source :=
  match headers [] s.bytes with
  | (.error e, rest) => (.broken e, { s with bytes := rest })
  | (.ok none, rest) => (.closed, { s with bytes := rest })
  | (.ok (some hs), rest) =>
    let s : Source := { s with bytes := rest }
    match contentLength hs with
    | .bad e => (.broken e, s)
    | .excess e => (.excess e, s)
    | .ok n =>
      let (content, s) := s.readExact n
      if content.length < n then (.broken (.endInContent n content.length), s)
      else (reading content, s)

/-- How many more bytes are needed, at the least, before the next reading is decided. -/
def wanted (bytes : Bytes) : Nat :=
  match headers [] bytes with
  | (.ok none, _) | (.error .endInHeaders, _) | (.error .endInLine, _) => 1
  | (.error _, _) => 0
  | (.ok (some hs), rest) =>
    match contentLength hs with
    | .ok n => n - rest.length
    | _ => 0

private theorem headers_length_le (seen : Entries Text) (bytes : Bytes) :
    (headers seen bytes).2.length ≤ bytes.length := by
  fun_induction headers seen bytes with
  | case1 _ rest _ => exact splitLine_length_le _
  | case2 _ _ _ rest _ _ => exact splitLine_length_le _
  | case3 bytes _ _ _ _ ih => exact Nat.le_trans ih (splitLine_length_le bytes)
  | case4 => exact splitLine_length_le _
  | case5 => exact splitLine_length_le _
  | case6 _ bytes _ _ _ _ _ _ _ ih => exact Nat.le_trans ih (splitLine_length_le bytes)

theorem headers_length_lt (seen : Entries Text) (bytes : Bytes) (h : bytes ≠ []) :
    (headers seen bytes).2.length < bytes.length := by
  have hline : (splitLine bytes).1 ≠ [] := fun hn => h (splitLine_eq_nil hn)
  have hlt := splitLine_length_lt hline
  unfold headers
  simp only [hline, if_false]
  split
  · split
    · exact Nat.lt_of_le_of_lt (headers_length_le _ _) hlt
    · exact hlt
  · split
    · exact hlt
    · exact Nat.lt_of_le_of_lt (headers_length_le _ _) hlt

theorem headers_nil (seen : Entries Text) (h : seen = []) : headers seen [] = (.ok none, []) := by
  unfold headers
  simp [splitLine, h]

/-- A reading that does not find the source at its end takes at least one byte. -/
theorem read_length_lt {s : Source} (h : (read s).1 ≠ .closed) :
    (read s).2.bytes.length < s.bytes.length := by
  by_cases hb : s.bytes = []
  · exact absurd (by unfold read; simp [hb, headers_nil [] rfl]) h
  · have hlt := headers_length_lt [] s.bytes hb
    unfold read
    split
    · rename_i heq
      rw [heq] at hlt
      exact hlt
    · rename_i heq
      rw [heq] at hlt
      exact hlt
    · rename_i hs rest heq
      rw [heq] at hlt
      split
      · exact hlt
      · exact hlt
      · rename_i n _
        have hexact := Source.readExact_length_le n { s with bytes := rest }
        dsimp only
        split <;> exact Nat.lt_of_le_of_lt hexact hlt

end Frame

end RubyLanguageServer
