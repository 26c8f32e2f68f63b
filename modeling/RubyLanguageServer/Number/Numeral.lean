import RubyLanguageServer.Text.Decimal
/-!
# Decimal numerals

Integers are read from and written as decimal digits. A numeral of more than 4300 digits is neither
read nor written; leading zeros count.
-/
namespace RubyLanguageServer

namespace Numeral

/-- The greatest number of digits that is read or written. -/
def limit : Nat := 4300

inductive Excess where
  | read (digits : Nat)
  | written
deriving DecidableEq, Repr

def ofNat (n : Nat) : Text := (Nat.toDigits 10 n).map CodePoint.ofChar

/-- The decimal digits of an integer behind its sign. -/
def ofInt (n : Int) : Text := if n < 0 then '-' :: ofNat n.natAbs else ofNat n.natAbs

def value (digits : Text) : Nat :=
  digits.foldl (fun n c => 10 * n + c.decimalValue?.getD 0) 0

/-- The number that the digits denote, if they are not too many. -/
def read (digits : Text) : Except Excess Nat :=
  if digits.length ≤ limit then .ok (value digits) else .error (.read digits.length)

/-- The numeral of an integer, if it has not too many digits. -/
def write (n : Int) : Except Excess Text :=
  if (ofNat n.natAbs).length ≤ limit then .ok (ofInt n) else .error .written

def Excess.message : Excess → Text
  | .read digits =>
    "Exceeds the limit (" ++ ofNat limit ++ " digits) for integer string conversion: value has " ++
      ofNat digits ++ " digits; use sys.set_int_max_str_digits() to increase the limit"
  | .written =>
    "Exceeds the limit (" ++ ofNat limit ++ " digits) for integer string conversion; use " ++
      "sys.set_int_max_str_digits() to increase the limit"

end Numeral

end RubyLanguageServer
