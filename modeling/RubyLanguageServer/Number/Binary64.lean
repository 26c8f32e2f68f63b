import RubyLanguageServer.Number.Numeral
/-!
# Binary floating point numbers of 64 bits

A finite number is a signed mantissa times a power of two, kept in lowest exponent form: the
mantissa has 53 bits unless the exponent is the least one. Decimals are rounded to the nearest such
number, ties to the even mantissa, in exact arithmetic. Printing takes the fewest digits that read
back as the number, and of those the nearest to it.
-/
namespace RubyLanguageServer

inductive Binary64 where
  | nan
  | infinite (negative : Bool)
  | finite (negative : Bool) (mantissa : Nat) (exponent : Int)
deriving DecidableEq, Repr

namespace Binary64

/-- The least exponent of a mantissa that is a whole number. -/
def minExponent : Int := -1074

/-- The greatest exponent of a mantissa of 53 bits. -/
def maxExponent : Int := 971

def zero (negative : Bool) : Binary64 := .finite negative 0 minExponent

/-- Neither infinite nor the undefined number. -/
def isFinite : Binary64 → Bool
  | .finite .. => true
  | _ => false

def bitLength (n : Nat) : Nat := if n = 0 then 0 else n.log2 + 1

def decimalLength (n : Nat) : Nat := (Nat.toDigits 10 n).length

/-- The quotient rounded to the nearest number, a tie to the even one. -/
def roundQuotient (n d : Nat) : Nat :=
  let q := n / d
  let r := n % d
  if 2 * r > d || (2 * r == d && q % 2 == 1) then q + 1 else q

/-- The least mantissa of a normal number, which has 53 binary digits. -/
def leastNormal : Nat := 4503599627370496

/-- The quotient `n / (d * 2 ^ e)` as a fraction. -/
def scaled (n d : Nat) (e : Int) : Nat × Nat :=
  if e ≥ 0 then (n, d * Nat.pow 2 e.toNat) else (n * Nat.pow 2 (-e).toNat, d)

/-- The number nearest to the fraction `n / d`. -/
def ofFraction (negative : Bool) (n d : Nat) : Binary64 :=
  let least : Int := max minExponent ((bitLength n : Int) - bitLength d - 53)
  let low := scaled n d least
  let e := if low.1 / low.2 ≥ 2 * leastNormal then least + 1 else least
  let exact := scaled n d e
  let m := roundQuotient exact.1 exact.2
  let (m, e) := if m = 2 * leastNormal then (leastNormal, e + 1) else (m, e)
  if e > maxExponent then .infinite negative
  else if m = 0 then zero negative
  else .finite negative m e

/-- The number nearest to the decimal `digits * 10 ^ exponent`. The decimals far outside the range
are settled by their length. -/
def ofDecimal (negative : Bool) (digits : Nat) (exponent : Int) : Binary64 :=
  let magnitude := exponent + decimalLength digits
  if digits = 0 || magnitude < -330 then zero negative
  else if magnitude > 310 then .infinite negative
  else if exponent ≥ 0 then ofFraction negative (digits * Nat.pow 10 exponent.toNat) 1
  else ofFraction negative digits (Nat.pow 10 (-exponent).toNat)

/-- More significant digits than any number has, and any midpoint between two neighbours. -/
def enoughDigits : Nat := 800

/-- The number nearest to the decimal with the given digits times `10 ^ exponent`. Of the digits
behind those that are enough it only counts whether one is not zero. -/
def ofDigits (negative : Bool) (digits : Text) (exponent : Int) : Binary64 :=
  let isZero (c : CodePoint) : Bool := c = '0'
  let significant := digits.dropWhile isZero
  let rest := significant.drop enoughDigits
  if rest.all isZero then
    ofDecimal negative (Numeral.value (significant.take enoughDigits)) (exponent + rest.length)
  else
    ofDecimal negative (10 * Numeral.value (significant.take enoughDigits) + 1)
      (exponent + rest.length - 1)

/-- The integer that a finite number equals, if it has no fractional part. -/
def toInt? : Binary64 → Option Int
  | .finite negative m e =>
    let signed (n : Nat) : Int := if negative then -n else n
    if e ≥ 0 then some (signed (m * Nat.pow 2 e.toNat))
    else if m % Nat.pow 2 (-e).toNat = 0 then some (signed (m / Nat.pow 2 (-e).toNat))
    else none
  | _ => none

/-- A positive decimal `digits * 10 ^ exponent`. -/
structure Decimal where
  digits : Nat
  exponent : Int
deriving DecidableEq, Repr

/-- The fraction `n / d` in units of `10 ^ exponent`. -/
def inUnits (n d : Nat) (exponent : Int) : Nat × Nat :=
  if exponent ≥ 0 then (n, d * Nat.pow 10 exponent.toNat)
  else (n * Nat.pow 10 (-exponent).toNat, d)

/-- The decimal of a given number of digits that stands for the mantissa, if one of the two
neighbours on its grid rounds to it. With four units to the mantissa's last place, the reals that
round to it reach from `low` to `4 * m + 2`, ends included if the mantissa is even. -/
def onGrid? (m : Nat) (low : Nat) (n d : Nat) (exponent : Int) : Option Decimal :=
  let at4 := inUnits n (4 * d) exponent
  let inside (k : Nat) : Bool :=
    if m % 2 = 0 then low * at4.1 ≤ k * at4.2 && k * at4.2 ≤ (4 * m + 2) * at4.1
    else low * at4.1 < k * at4.2 && k * at4.2 < (4 * m + 2) * at4.1
  let below := 4 * m * at4.1 / at4.2
  let nearer := roundQuotient (4 * m * at4.1) at4.2
  let farther := if nearer = below then below + 1 else below
  if inside nearer then some ⟨nearer, exponent⟩
  else if inside farther then some ⟨farther, exponent⟩
  else none

/-- The decimal with the fewest digits that rounds to `m * 2 ^ e`. Seventeen digits are always
enough. -/
def shortest (m : Nat) (e : Int) : Decimal :=
  let (n, d) := if e ≥ 0 then (Nat.pow 2 e.toNat, 1) else (1, Nat.pow 2 (-e).toNat)
  let low := if m = leastNormal && e > minExponent then 4 * m - 1 else 4 * m - 2
  let rough : Int := (decimalLength (m * n) : Int) - decimalLength d
  let top := inUnits (m * n) d rough
  let point := if top.1 < top.2 then rough else rough + 1
  let grids := (List.range 17).map fun (count : Nat) => onGrid? m low n d (point - (count + 1))
  (grids.findSome? id).getD ⟨m * n / d, 0⟩

/-- The digits of a decimal without the zeros at its end, and the place of its point counted from
the first digit. -/
def Decimal.places (x : Decimal) : Text × Int :=
  let digits := Numeral.ofNat x.digits
  let kept := (digits.reverse.dropWhile (· = CodePoint.ofChar '0')).reverse
  (kept, x.exponent + digits.length)

/-- Positional notation from `1e-4` up to, not including, `1e16`, with at least one digit behind the
point; outside of that the mantissa and an exponent of at least two digits behind its sign. -/
def layout (digits : Text) (point : Int) : Text :=
  if -4 < point && point ≤ 16 then
    if point ≤ 0 then "0." ++ List.replicate (-point).toNat (CodePoint.ofChar '0') ++ digits
    else if digits.length ≤ point.toNat then
      digits ++ List.replicate (point.toNat - digits.length) (CodePoint.ofChar '0') ++ ".0"
    else digits.take point.toNat ++ "." ++ digits.drop point.toNat
  else
    let power := point - 1
    let exponent := Numeral.ofNat power.natAbs
    let padded : Text := if exponent.length < 2 then '0' :: exponent else exponent
    let mantissa : Text :=
      if digits.length ≤ 1 then digits else digits.take 1 ++ "." ++ digits.drop 1
    let sign : Text := if power < 0 then "-" else "+"
    mantissa ++ "e" ++ sign ++ padded

def toText : Binary64 → Text
  | .nan => "NaN"
  | .infinite negative => if negative then "-Infinity" else "Infinity"
  | .finite negative m e =>
    let body : Text :=
      if m = 0 then "0.0"
      else
        let (digits, point) := (shortest m e).places
        layout digits point
    if negative then '-' :: body else body

end Binary64

end RubyLanguageServer
