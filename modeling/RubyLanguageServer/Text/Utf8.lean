import RubyLanguageServer.Text.Basic
import RubyLanguageServer.Number.Numeral
/-!
# UTF-8

A byte sequence is read from its head: either a scalar value, or a flaw that takes in the longest
beginning of a well-formed sequence. Strict decoding stops at the first flaw and reports its place;
lossy decoding writes one replacement character for each flaw and goes on behind it. Encoding
refuses surrogates.
-/
namespace RubyLanguageServer

abbrev Bytes := List UInt8

namespace Utf8

/-- Why bytes are not the encoding of a scalar value. -/
inductive Reason where
  | invalidStart
  | invalidContinuation
  | unexpectedEnd
deriving DecidableEq, Repr

def Reason.message : Reason → Text
  | .invalidStart => "invalid start byte"
  | .invalidContinuation => "invalid continuation byte"
  | .unexpectedEnd => "unexpected end of data"

/-- The head of a byte sequence; `more` counts the bytes that belong to it after the first. -/
inductive Head where
  | scalar (c : CodePoint) (more : Nat)
  | flaw (reason : Reason) (more : Nat)
deriving DecidableEq, Repr

def isContinuation (b : UInt8) : Bool := 0x80 ≤ b && b ≤ 0xbf

/-- Whether `b` may follow the first byte `a` of a sequence of three or four bytes. The narrower
ranges keep out overlong forms, surrogates and numbers beyond the last code point. -/
def isSecond (a b : UInt8) : Bool :=
  if a = 0xe0 then 0xa0 ≤ b && b ≤ 0xbf
  else if a = 0xed then 0x80 ≤ b && b ≤ 0x9f
  else if a = 0xf0 then 0x90 ≤ b && b ≤ 0xbf
  else if a = 0xf4 then 0x80 ≤ b && b ≤ 0x8f
  else isContinuation b

def head (a : UInt8) (rest : Bytes) : Head :=
  if a < 0x80 then .scalar (.ofNat a.toNat) 0
  else if a < 0xc2 then .flaw .invalidStart 0
  else if a < 0xe0 then
    match rest with
    | [] => .flaw .unexpectedEnd 0
    | b :: _ =>
      if isContinuation b then
        .scalar (.ofNat ((a.toNat - 0xc0) * 0x40 + (b.toNat - 0x80))) 1
      else .flaw .invalidContinuation 0
  else if a < 0xf0 then
    match rest with
    | [] => .flaw .unexpectedEnd 0
    | b :: rest =>
      if isSecond a b then
        match rest with
        | [] => .flaw .unexpectedEnd 1
        | c :: _ =>
          if isContinuation c then
            .scalar (.ofNat ((a.toNat - 0xe0) * 0x1000 + (b.toNat - 0x80) * 0x40 +
              (c.toNat - 0x80))) 2
          else .flaw .invalidContinuation 1
      else .flaw .invalidContinuation 0
  else if a < 0xf5 then
    match rest with
    | [] => .flaw .unexpectedEnd 0
    | b :: rest =>
      if isSecond a b then
        match rest with
        | [] => .flaw .unexpectedEnd 1
        | c :: rest =>
          if isContinuation c then
            match rest with
            | [] => .flaw .unexpectedEnd 2
            | d :: _ =>
              if isContinuation d then
                .scalar (.ofNat ((a.toNat - 0xf0) * 0x40000 + (b.toNat - 0x80) * 0x1000 +
                  (c.toNat - 0x80) * 0x40 + (d.toNat - 0x80))) 3
              else .flaw .invalidContinuation 2
          else .flaw .invalidContinuation 1
      else .flaw .invalidContinuation 0
  else .flaw .invalidStart 0

/-- The first flaw of a byte sequence: where it begins, its first byte and how many more belong
to it. -/
structure Flaw where
  position : Nat
  byte : UInt8
  more : Nat
  reason : Reason
deriving DecidableEq, Repr

def Flaw.message (f : Flaw) : Text :=
  if f.more = 0 then
    "'utf-8' codec can't decode byte 0x" ++ Text.hexDigits 2 f.byte.toNat ++ " in position " ++
      Numeral.ofNat f.position ++ ": " ++ f.reason.message
  else
    "'utf-8' codec can't decode bytes in position " ++ Numeral.ofNat f.position ++ "-" ++
      Numeral.ofNat (f.position + f.more) ++ ": " ++ f.reason.message

/-- Strict decoding of bytes that begin at the given position. -/
def decodeFrom (position : Nat) : Bytes → Except Flaw Text
  | [] => .ok []
  | a :: rest =>
    match head a rest with
    | .scalar c more => do
      let cs ← decodeFrom (position + more + 1) (rest.drop more)
      return c :: cs
    | .flaw reason more => .error ⟨position, a, more, reason⟩
termination_by bytes => bytes.length
decreasing_by simp only [List.length_drop, List.length_cons]; omega

/-- The text that the bytes encode, or the first flaw. -/
def decode (bytes : Bytes) : Except Flaw Text := decodeFrom 0 bytes

/-- The text with one replacement character for each flaw. -/
def decodeLossy : Bytes → Text
  | [] => []
  | a :: rest =>
    match head a rest with
    | .scalar c more => c :: decodeLossy (rest.drop more)
    | .flaw _ more => .replacement :: decodeLossy (rest.drop more)
termination_by bytes => bytes.length
decreasing_by all_goals (simp only [List.length_drop, List.length_cons]; omega)

/-- The bytes of a code point; meant for scalar values. -/
def encodeScalar (c : CodePoint) : Bytes :=
  if c.val < 0x80 then [.ofNat c.val]
  else if c.val < 0x800 then [.ofNat (0xc0 + c.val / 0x40), .ofNat (0x80 + c.val % 0x40)]
  else if c.val < 0x10000 then
    [.ofNat (0xe0 + c.val / 0x1000), .ofNat (0x80 + c.val / 0x40 % 0x40),
      .ofNat (0x80 + c.val % 0x40)]
  else
    [.ofNat (0xf0 + c.val / 0x40000), .ofNat (0x80 + c.val / 0x1000 % 0x40),
      .ofNat (0x80 + c.val / 0x40 % 0x40), .ofNat (0x80 + c.val % 0x40)]

/-- The number of bytes of a text of scalar values. -/
def size (t : Text) : Nat := (t.flatMap encodeScalar).length

/-- The first run of surrogates in a text: where it begins and the surrogates. -/
structure LoneSurrogates where
  position : Nat
  first : CodePoint
  more : Nat
deriving DecidableEq, Repr

def LoneSurrogates.message (s : LoneSurrogates) : Text :=
  if s.more = 0 then
    "'utf-8' codec can't encode character '\\u" ++ Text.hexDigits 4 s.first.val ++
      "' in position " ++ Numeral.ofNat s.position ++ ": surrogates not allowed"
  else
    "'utf-8' codec can't encode characters in position " ++ Numeral.ofNat s.position ++ "-" ++
      Numeral.ofNat (s.position + s.more) ++ ": surrogates not allowed"

/-- The first run of surrogates, if the text has one. -/
def loneSurrogates? (t : Text) : Option LoneSurrogates :=
  match t.dropWhile fun c => !c.isSurrogate with
  | [] => none
  | c :: cs =>
    some ⟨(t.takeWhile fun c => !c.isSurrogate).length, c, (cs.takeWhile (·.isSurrogate)).length⟩

/-- The bytes of a text of scalar values, or its first surrogates. -/
def encode (t : Text) : Except LoneSurrogates Bytes :=
  match loneSurrogates? t with
  | some s => .error s
  | none => .ok (t.flatMap encodeScalar)

/-- The text with a backslash, the letter u and four hexadecimal digits for each surrogate, so that
it can be encoded. -/
def escapeSurrogates (t : Text) : Text :=
  t.flatMap fun c => if c.isSurrogate then "\\u" ++ Text.hexDigits 4 c.val else [c]

end Utf8

end RubyLanguageServer
