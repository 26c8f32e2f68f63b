import RubyLanguageServer.Json.Basic
import RubyLanguageServer.Text.Lines
/-!
# Reading JSON

Recursive descent over the text; each reader returns what it read and the rest. `NaN`, `Infinity`
and `-Infinity` are values, a key given twice keeps its first place and its last value, and escaped
surrogates that make a pair become one code point. A reader that stops names its reason and how
much text was left there, which gives the place in the whole text.
-/
namespace RubyLanguageServer

namespace Json

inductive Complaint where
  | byteOrderMark
  | expectedValue
  | expectedName
  | expectedColon
  | expectedComma
  | unterminatedString
  | controlCharacter
  | badEscape
  | badUnicodeEscape
  | extraData
deriving DecidableEq, Repr

def Complaint.message : Complaint → Text
  | .byteOrderMark => "Unexpected UTF-8 BOM (decode using utf-8-sig)"
  | .expectedValue => "Expecting value"
  | .expectedName => "Expecting property name enclosed in double quotes"
  | .expectedColon => "Expecting ':' delimiter"
  | .expectedComma => "Expecting ',' delimiter"
  | .unterminatedString => "Unterminated string starting at"
  | .controlCharacter => "Invalid control character at"
  | .badEscape => "Invalid \\escape"
  | .badUnicodeEscape => "Invalid \\uXXXX escape"
  | .extraData => "Extra data"

/-- A complaint and the number of code points from its place to the end of the text, or a numeral
with too many digits. -/
inductive Stop where
  | syntactic (complaint : Complaint) (left : Nat)
  | excess (e : Numeral.Excess)
deriving DecidableEq, Repr

def stopAt {α : Type} (complaint : Complaint) (t : Text) : Except Stop α :=
  .error (.syntactic complaint t.length)

def isSpace (c : CodePoint) : Bool :=
  c.val == 0x20 || c.val == 0x9 || c.val == 0xa || c.val == 0xd

def skipSpace (t : Text) : Text := t.dropWhile isSpace

def shortEscape? (c : CodePoint) : Option CodePoint :=
  if c = '"' || c = '\\' || c = '/' then some c
  else if c = 'b' then some (.ofNat 0x8)
  else if c = 'f' then some (.ofNat 0xc)
  else if c = 'n' then some '\n'
  else if c = 'r' then some '\r'
  else if c = 't' then some '\t'
  else none

def hexValue? (a b c d : CodePoint) : Option Nat := do
  let a ← a.hexValue?
  let b ← b.hexValue?
  let c ← c.hexValue?
  let d ← d.hexValue?
  return ((a * 16 + b) * 16 + c) * 16 + d

def joinSurrogates (high low : CodePoint) : CodePoint :=
  .ofNat (0x10000 + (high.val - 0xd800) * 0x400 + (low.val - 0xdc00))

/-- A code point of a string, written as itself or by an escape with four digits. -/
structure Piece where
  code : CodePoint
  escaped : Bool
deriving DecidableEq, Repr

/-- The text of a string: escaped surrogates next to each other that make a pair are joined. -/
def joinPieces : List Piece → Text
  | [] => []
  | [p] => [p.code]
  | p :: q :: rest =>
    if p.escaped && p.code.isHighSurrogate && q.escaped && q.code.isLowSurrogate then
      joinSurrogates p.code q.code :: joinPieces rest
    else p.code :: joinPieces (q :: rest)

/-- The pieces of a string behind its opening quote; `start` is the text from that quote on. An
escape with four digits needs at least one more code point behind it. -/
def pieces (start : Text) : Text → Except Stop (List Piece × Text)
  | [] => stopAt .unterminatedString start
  | c :: cs =>
    if c = '"' then .ok ([], cs)
    else if c = '\\' then
      match cs with
      | [] => stopAt .unterminatedString start
      | e :: es =>
        if e = 'u' then
          match es with
          | h₁ :: h₂ :: h₃ :: h₄ :: next :: rest =>
            match hexValue? h₁ h₂ h₃ h₄ with
            | none => stopAt .badUnicodeEscape (e :: es)
            | some n => do
              let (ps, rest) ← pieces start (next :: rest)
              return (⟨.ofNat n, true⟩ :: ps, rest)
          | _ => stopAt .badUnicodeEscape (e :: es)
        else
          match shortEscape? e with
          | none => stopAt .badEscape (c :: cs)
          | some d => do
            let (ps, rest) ← pieces start es
            return (⟨d, false⟩ :: ps, rest)
    else if c.val < 0x20 then stopAt .controlCharacter (c :: cs)
    else do
      let (ps, rest) ← pieces start cs
      return (⟨c, false⟩ :: ps, rest)

/-- A string whose opening quote has been taken from the text. -/
def string (behindQuote : Text) : Except Stop (Text × Text) := do
  let (ps, rest) ← pieces ('"' :: behindQuote) behindQuote
  return (joinPieces ps, rest)

/-- A number as it is written: sign, whole part, and fraction and exponent if there are any. -/
structure Lexeme where
  negative : Bool
  whole : Text
  fraction : Option Text
  exponent : Option (Bool × Text)
deriving DecidableEq, Repr

def digits (t : Text) : Text × Text := (t.takeWhile (·.isDigit), t.dropWhile (·.isDigit))

/-- The whole part: a zero, or digits that do not begin with one. -/
def whole? : Text → Option (Text × Text)
  | [] => none
  | c :: cs =>
    if c = '0' then some ([c], cs)
    else if c.isDigit then some (digits (c :: cs))
    else none

def fraction? : Text → Option (Text × Text)
  | c :: d :: ds => if c = '.' && d.isDigit then some (digits (d :: ds)) else none
  | _ => none

/-- The mark of the exponent, a sign if there is one, and at least one digit. -/
def exponent? : Text → Option ((Bool × Text) × Text)
  | [] => none
  | c :: cs =>
    if c = 'e' || c = 'E' then
      let (negative, cs) : Bool × Text :=
        match cs with
        | [] => (false, [])
        | d :: ds => if d = '-' then (true, ds) else if d = '+' then (false, ds) else (false, cs)
      match digits cs with
      | ([], _) => none
      | (ds, rest) => some ((negative, ds), rest)
    else none

/-- The longest number at the beginning of the text. -/
def lexeme? (t : Text) : Option (Lexeme × Text) := do
  let (negative, body) : Bool × Text :=
    match t with
    | [] => (false, [])
    | c :: cs => if c = '-' then (true, cs) else (false, c :: cs)
  let (whole, rest) ← whole? body
  let (fraction, rest) :=
    match fraction? rest with
    | some (ds, rest) => (some ds, rest)
    | none => (none, rest)
  let (exponent, rest) :=
    match exponent? rest with
    | some (e, rest) => (some e, rest)
    | none => (none, rest)
  return (⟨negative, whole, fraction, exponent⟩, rest)

/-- The value of an exponent's digits. Beyond eighteen digits it outweighs every fraction, and only
that it does so counts. -/
def exponentValue (ds : Text) : Nat :=
  let ds : Text := ds.dropWhile (· = CodePoint.ofChar '0')
  if ds.length ≤ 18 then Numeral.value ds else 1000000000000000000

/-- The value of a number: an integer if it has neither fraction nor exponent. -/
def Lexeme.value (l : Lexeme) : Except Numeral.Excess Json :=
  match l.fraction, l.exponent with
  | none, none => do
    let n ← Numeral.read l.whole
    return .int (if l.negative then -n else n)
  | fraction, exponent =>
    let fraction := fraction.getD []
    let power : Int :=
      match exponent with
      | none => 0
      | some (negative, ds) => if negative then -exponentValue ds else exponentValue ds
    .ok (.float (.ofDigits l.negative (l.whole ++ fraction) (power - fraction.length)))

def words : List (Text × Json) := [
  ("null", .null), ("true", .bool true), ("false", .bool false), ("NaN", .float .nan),
  ("Infinity", .float (.infinite false)), ("-Infinity", .float (.infinite true))]

def word? (t : Text) : Option (Json × Text) :=
  words.findSome? fun (word, value) => (t.after? word).map (value, ·)

def atom (t : Text) : Except Stop (Json × Text) :=
  match word? t with
  | some found => .ok found
  | none =>
    match lexeme? t with
    | none => stopAt .expectedValue t
    | some (l, rest) =>
      match l.value with
      | .ok v => .ok (v, rest)
      | .error e => .error (.excess e)

mutual

/-- A value at the very beginning of the text. The fuel bounds the calls; twice the length of the
text is enough. -/
def value : Nat → Text → Except Stop (Json × Text)
  | 0, t => stopAt .expectedValue t
  | _ + 1, [] => stopAt .expectedValue []
  | fuel + 1, c :: cs =>
    if c = '"' then do
      let (t, rest) ← string cs
      return (.text t, rest)
    else if c = '[' then
      match skipSpace cs with
      | d :: ds => if d = ']' then .ok (.array [], ds) else do
        let (vs, rest) ← items fuel (d :: ds)
        return (.array vs, rest)
      | [] => do
        let (vs, rest) ← items fuel []
        return (.array vs, rest)
    else if c = '{' then
      match skipSpace cs with
      | d :: ds => if d = '}' then .ok (.object [], ds) else do
        let (ms, rest) ← members fuel [] (d :: ds)
        return (.object ms, rest)
      | [] => do
        let (ms, rest) ← members fuel [] []
        return (.object ms, rest)
    else atom (c :: cs)

/-- The items of an array up to and with its closing bracket. -/
def items : Nat → Text → Except Stop (List Json × Text)
  | 0, t => stopAt .expectedValue t
  | fuel + 1, t => do
    let (v, rest) ← value fuel t
    match skipSpace rest with
    | c :: cs =>
      if c = ']' then return ([v], cs)
      else if c = ',' then
        let (vs, rest) ← items fuel (skipSpace cs)
        return (v :: vs, rest)
      else stopAt .expectedComma (c :: cs)
    | [] => stopAt .expectedComma []

/-- The members of an object up to and with its closing brace, after those already read. -/
def members : Nat → List (Text × Json) → Text → Except Stop (List (Text × Json) × Text)
  | 0, _, t => stopAt .expectedValue t
  | _ + 1, _, [] => stopAt .expectedName []
  | fuel + 1, read, q :: qs =>
    if q = '"' then do
      let (key, rest) ← string qs
      match skipSpace rest with
      | c :: cs =>
        if c = ':' then
          let (v, rest) ← value fuel (skipSpace cs)
          let read := Entries.insert key v read
          match skipSpace rest with
          | d :: ds =>
            if d = '}' then return (read, ds)
            else if d = ',' then members fuel read (skipSpace ds)
            else stopAt .expectedComma (d :: ds)
          | [] => stopAt .expectedComma []
        else stopAt .expectedColon (c :: cs)
      | [] => stopAt .expectedColon []
    else stopAt .expectedName (q :: qs)

end

/-- A whole text that is one value with space around it. -/
def document (t : Text) : Except Stop Json := do
  match t with
  | c :: _ => if c.val = 0xfeff then stopAt .byteOrderMark t
  | [] => pure ()
  let (v, rest) ← value (2 * t.length + 2) (skipSpace t)
  match skipSpace rest with
  | [] => return v
  | extra => stopAt .extraData extra

/-- A complaint and its place: the number of code points before it, the line counted by line feeds
and the column, both from one. -/
structure SyntaxError where
  complaint : Complaint
  offset : Nat
  line : Nat
  column : Nat
deriving DecidableEq, Repr

/-- The place in a text where a given number of code points is left. -/
def SyntaxError.locate (t : Text) (complaint : Complaint) (left : Nat) : SyntaxError :=
  let before := t.take (t.length - left)
  { complaint
    offset := before.length
    line := before.count CodePoint.lineFeed + 1
    column := (before.reverse.takeWhile (· ≠ CodePoint.lineFeed)).length + 1 }

def SyntaxError.message (e : SyntaxError) : Text :=
  e.complaint.message ++ ": line " ++ Numeral.ofNat e.line ++ " column " ++
    Numeral.ofNat e.column ++ " (char " ++ Numeral.ofNat e.offset ++ ")"

/-- Why a text cannot be read: it is not JSON, or a numeral in it has too many digits. -/
inductive ReadError where
  | malformed (e : SyntaxError)
  | excess (e : Numeral.Excess)
deriving DecidableEq, Repr

def read (t : Text) : Except ReadError Json :=
  match document t with
  | .ok v => .ok v
  | .error (.syntactic complaint left) => .error (.malformed (.locate t complaint left))
  | .error (.excess e) => .error (.excess e)

end Json

end RubyLanguageServer
