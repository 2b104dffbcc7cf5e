import MacroScript.Double.Basic

/-!
# Floating point numbers in decimal

A number is written with the fewest decimal digits that are read back as that
number, and with the nearest such digits where there is a choice. Numbers from
a ten-thousandth up to ten to the sixteenth have a point among their digits or
zeros around it; all others have an exponent with a sign and at least two
digits.
-/
namespace MacroScript.Double

/-- A whole number of powers of ten. -/
structure Decimal where
  digits : Nat
  exponent : Int
  deriving DecidableEq, Repr

namespace Decimal

/-- Whether a decimal is read as the positive number of so many units. -/
def readsAs (d : Decimal) (units : Nat) : Bool :=
  ofDecimal false d.digits d.exponent == finite false units

/-- The decimal nearest to a number among the whole numbers of one power of ten that are read
back as it. Only the two neighbours of the number can be. -/
def onGrid? (units : Nat) (exponent : Int) : Option Decimal :=
  let num := units * Nat.pow 10 (-exponent).toNat
  let den := one * Nat.pow 10 exponent.toNat
  let lower := num / den
  ([nearest num den, lower, lower + 1].map fun digits => ⟨digits, exponent⟩).find?
    fun d => d.readsAs units

/-- The least power of ten above a number. -/
def scale (units : Nat) : Int :=
  let offsets := List.range 633
  let above (offset : Nat) : Bool :=
    let exponent := (offset : Int) - 323
    units * Nat.pow 10 (-exponent).toNat < one * Nat.pow 10 exponent.toNat
  (offsets.find? above).getD 632 - 323

/-- All digits of a number: a unit is a power of a half. -/
def exact (units : Nat) : Decimal := ⟨units * Nat.pow 5 1074, -1074⟩

/-- The fewest digits that are read back as a number, or all of its digits if seventeen are too
few. -/
def shortest (units : Nat) : Decimal :=
  ((List.range 17).findSome? fun (count : Nat) => onGrid? units (scale units - (count + 1))).getD
    (exact units)

def significant (d : Decimal) : List Char :=
  ((Nat.toDigits 10 d.digits).reverse.dropWhile (· == '0')).reverse

/-- The place of the point, counted from before the first digit. -/
def point (d : Decimal) : Int := (Nat.toDigits 10 d.digits).length + d.exponent

end Decimal

/-- Digits with a point among them, or with zeros up to it. -/
def positional (digits : List Char) (point : Int) : List Char :=
  let zeros := List.replicate (-point).toNat '0'
  let padding := List.replicate (point.toNat - digits.length) '0'
  let whole := digits.take point.toNat ++ padding
  let fraction := zeros ++ digits.drop point.toNat
  (if whole.isEmpty then ['0'] else whole) ++ '.' :: (if fraction.isEmpty then ['0'] else fraction)

def exponentMark (exponent : Int) : List Char :=
  let magnitude := Nat.toDigits 10 exponent.natAbs
  let padding := List.replicate (2 - magnitude.length) '0'
  'e' :: (if exponent < 0 then '-' else '+') :: (padding ++ magnitude)

/-- Digits with the point behind the first one, and an exponent. -/
def scientific (digits : List Char) (point : Int) : List Char :=
  let fraction := digits.drop 1
  digits.take 1 ++ (if fraction.isEmpty then [] else '.' :: fraction) ++ exponentMark (point - 1)

/-- The places of the point that need no exponent. -/
def isPositional (point : Int) : Bool := -4 < point && point ≤ 16

def writtenUnits (units : Nat) : List Char :=
  if units = 0 then ['0', '.', '0']
  else
    let d := Decimal.shortest units
    if isPositional d.point then positional d.significant d.point
    else scientific d.significant d.point

/-- A minus stands before negative numbers, the negative zero among them. -/
def signed (isNegative : Bool) (digits : List Char) : String :=
  String.ofList (if isNegative then '-' :: digits else digits)

def written : Double → String
  | finite isNegative units => signed isNegative (writtenUnits units)
  | infinite isNegative => signed isNegative ['i', 'n', 'f']
  | nan => "nan"

end MacroScript.Double
