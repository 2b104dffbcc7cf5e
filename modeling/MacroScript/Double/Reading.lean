import MacroScript.Double.Basic
import MacroScript.Text.Numeral

/-!
# Spelled floating point numbers

A floating point number is spelled by an optional sign, a row of digits with a
point in it, before it or behind it, and an optional exponent. The point may be
missing; single underscores may stand between two digits. The infinities and
what is no number are spelled by words in letters of either case, and blanks
around the whole are ignored. The number is the nearest one to what is spelled.
-/
namespace MacroScript.Double

def optionalDigits? : List Char → Option (List Nat)
  | [] => some []
  | digits => Text.digits? digits

def exponent? : List Char → Option Int
  | '-' :: digits => (Text.digits? digits).map fun ds => -(Text.valueOf ds : Int)
  | '+' :: digits => (Text.digits? digits).map fun ds => (Text.valueOf ds : Int)
  | digits => (Text.digits? digits).map fun ds => (Text.valueOf ds : Int)

/-- The number that digits around a point and an exponent spell. There is at least one digit. -/
def ofDigits? (isNegative : Bool) (whole fraction : List Char) (exponent : Int) :
    Option Double := do
  let before ← optionalDigits? whole
  let behind ← optionalDigits? fraction
  let digits := before ++ behind
  if digits.isEmpty then none
  else some (ofDecimal isNegative (Text.valueOf digits) (exponent - behind.length))

def ofNumeral? (isNegative : Bool) (numeral : List Char) : Option Double := do
  let isMark (c : Char) : Bool := c == 'e' || c == 'E'
  let row := numeral.takeWhile fun c => !isMark c
  let mark := numeral.dropWhile fun c => !isMark c
  let exponent ← if mark.isEmpty then some 0 else exponent? (mark.drop 1)
  ofDigits? isNegative (row.takeWhile (· != '.')) ((row.dropWhile (· != '.')).drop 1) exponent

def ofUnsigned? (isNegative : Bool) (cs : List Char) : Option Double :=
  let word := String.ofList (cs.map Char.toLower)
  if word = "inf" || word = "infinity" then some (infinite isNegative)
  else if word = "nan" then some nan
  else ofNumeral? isNegative cs

def ofText? (text : String) : Option Double :=
  match Text.trimBlanks text.toList with
  | '-' :: rest => ofUnsigned? true rest
  | '+' :: rest => ofUnsigned? false rest
  | cs => ofUnsigned? false cs

end MacroScript.Double
