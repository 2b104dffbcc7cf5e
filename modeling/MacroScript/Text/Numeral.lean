import MacroScript.Text.Blank
import MacroScript.Text.DecimalDigit

/-!
# Spelled integers

An integer is spelled by an optional sign and a row of decimal digits, in which
single underscores may stand between two digits. Digits of all scripts mix
freely, leading zeros have no meaning, and blanks around the whole are ignored.
A row of more digits than a fixed number is not read at all, whatever its value.
The number is a setting of the runtime that converts the digits. It is assumed to
be at its default.
-/
namespace MacroScript.Text

/-- The digits that follow a digit. -/
def digitsAfter? : List Char → Option (List Nat)
  | [] => some []
  | '_' :: c :: rest => (digitValue? c).bind fun d => (digitsAfter? rest).map (d :: ·)
  | c :: rest => (digitValue? c).bind fun d => (digitsAfter? rest).map (d :: ·)

/-- The digits of a row, which starts with a digit. -/
def digits? : List Char → Option (List Nat)
  | [] => none
  | c :: rest => (digitValue? c).bind fun d => (digitsAfter? rest).map (d :: ·)

/-- The value of digits, the most significant one first. -/
def valueOf (digits : List Nat) : Nat := digits.foldl (fun value d => 10 * value + d) 0

/-- The most digits that are read, zeros at the front among them: what the runtime allows unless it
is set up otherwise. -/
def maxDigits : Nat := 4300

def natural? (cs : List Char) : Option Nat :=
  (digits? cs).bind fun digits =>
    if digits.length ≤ maxDigits then some (valueOf digits) else none

/-- The integer that a text spells, if it spells one. -/
def integer? (text : String) : Option Int :=
  match trimBlanks text.toList with
  | '-' :: rest => (natural? rest).map fun n => -(n : Int)
  | '+' :: rest => (natural? rest).map fun n => (n : Int)
  | digits => (natural? digits).map fun n => (n : Int)

end MacroScript.Text
