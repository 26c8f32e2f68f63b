import RubyLanguageServer.Json.Basic
/-!
# Printing JSON

A comma and a colon are followed by one space. Strings are printed in ASCII: what is not printable
ASCII is escaped, and a code point beyond the basic plane becomes an escaped surrogate pair. The
only value that cannot be printed is an integer with too many digits.
-/
namespace RubyLanguageServer

namespace Json

def unicodeEscape (n : Nat) : Text := "\\u" ++ Text.hexDigits 4 n

def escape (c : CodePoint) : Text :=
  if c = '"' then "\\\""
  else if c = '\\' then "\\\\"
  else if c = '\n' then "\\n"
  else if c = '\r' then "\\r"
  else if c = '\t' then "\\t"
  else if c.val = 0xc then "\\f"
  else if c.val = 0x8 then "\\b"
  else if 0x20 ≤ c.val && c.val ≤ 0x7e then [c]
  else if c.val < 0x10000 then unicodeEscape c.val
  else
    unicodeEscape (0xd800 + (c.val - 0x10000) / 0x400) ++
      unicodeEscape (0xdc00 + (c.val - 0x10000) % 0x400)

def printString (t : Text) : Text := "\"" ++ t.flatMap escape ++ "\""

/-- The parts of an array or an object between its brackets. -/
def enclose (opening closing : Text) (parts : List Text) : Text :=
  opening ++ Text.joinWith ", " parts ++ closing

/-- A member of an object whose value is printed so. -/
def printMember (key value : Text) : Text := printString key ++ ": " ++ value

mutual

def print : Json → Except Numeral.Excess Text
  | .null => .ok "null"
  | .bool b => .ok (if b then "true" else "false")
  | .int n => Numeral.write n
  | .float x => .ok x.toText
  | .text t => .ok (printString t)
  | .array vs => do return enclose "[" "]" (← printItems vs)
  | .object ms => do return enclose "\x7b" "\x7d" (← printMembers ms)

def printItems : List Json → Except Numeral.Excess (List Text)
  | [] => .ok []
  | v :: vs => do
    let part ← print v
    return part :: (← printItems vs)

def printMembers : List (Text × Json) → Except Numeral.Excess (List Text)
  | [] => .ok []
  | (key, v) :: ms => do
    let value ← print v
    return printMember key value :: (← printMembers ms)

end

end Json

end RubyLanguageServer
