/-!
# Binary floating point numbers

Numbers with 53 significant binary digits and a bounded exponent. Every finite
one is a whole multiple of the least positive one, so it is kept as a sign and a
count of that unit: equality, and the comparison with a whole number, are
equations between natural numbers. A number that is not of this form is rounded
to the nearest one that is, and to the one with an even last digit where two are
equally near.
-/
namespace MacroScript

/-- A sign with a count of the least positive number, an infinity, or no number at all. -/
inductive Double where
  | finite (isNegative : Bool) (units : Nat)
  | infinite (isNegative : Bool)
  | nan
  deriving DecidableEq, Inhabited, Repr

namespace Double

def precision : Nat := 53

/-- The units that make one. -/
def one : Nat := Nat.pow 2 1074

/-- The first count of units that is too large. -/
def bound : Nat := Nat.pow 2 1024 * one

/-- The whole number nearest to a quotient, and the even one of two that are equally near. -/
def nearest (num den : Nat) : Nat :=
  let whole := num / den
  let rest := num % den
  if 2 * rest < den then whole
  else if den < 2 * rest then whole + 1
  else whole + whole % 2

/-- The count of units nearest to a fraction, among those with few enough binary digits. -/
def unitsOf (num den : Nat) : Nat :=
  let scaled := num * one
  let step := Nat.pow 2 ((scaled / den).log2 + 1 - precision)
  nearest scaled (den * step) * step

/-- The number nearest to a fraction with a sign. -/
def ofFraction (isNegative : Bool) (num den : Nat) : Double :=
  let units := unitsOf num den
  if units < bound then finite isNegative units else infinite isNegative

/-- The number nearest to a whole number of powers of ten. Where the power is beyond the range of
the numbers, so is the product, and its exact value is not needed. -/
def ofDecimal (isNegative : Bool) (digits : Nat) (exponent : Int) : Double :=
  if digits = 0 then finite isNegative 0
  else if 400 < exponent then infinite isNegative
  else if exponent + digits.log2 < -400 then finite isNegative 0
  else ofFraction isNegative (digits * Nat.pow 10 exponent.toNat) (Nat.pow 10 (-exponent).toNat)

/-- Equality of values: the two zeros are equal, and what is no number equals nothing. -/
def equal : Double → Double → Bool
  | finite s m, finite t n => m == n && (s == t || m == 0)
  | infinite s, infinite t => s == t
  | _, _ => false

def equalsInt (x : Double) (n : Int) : Bool :=
  x.equal (finite (n < 0) (n.natAbs * one))

def isTruthy : Double → Bool
  | finite _ units => units != 0
  | _ => true

end Double
end MacroScript
