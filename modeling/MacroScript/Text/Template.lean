import MacroScript.Text.DecimalDigit
import MacroScript.Text.Quoted

/-!
# Templates

A template is a text with fields in braces that are to be filled in; a doubled
brace stands for one brace. The templates here are filled in without any values,
so one with a field has no text: the first field is at fault, either because it
is malformed or because there is no value for it.

A field is a name, then perhaps a conversion of one character behind an
exclamation mark, then perhaps a specification behind a colon. The name starts
with what is looked up, an index in decimal digits or a word, and goes on with
steps into the value, behind a point or in brackets.
-/
namespace MacroScript.Text.Template

/-- Why a template has no text when there are no values. -/
inductive Error where
  | loneOpening
  | loneClosing
  | openingInName
  | unclosedName
  | missingConversion
  | longConversion
  | unclosedSpecification
  | indexTooLarge
  | noValueAt (index : Nat)
  | noValueNamed (name : String)
  deriving DecidableEq, Repr

/-- The wording of each error. A missing name is shown quoted. -/
def Error.message : Error → String
  | loneOpening => "Single '\x7b' encountered in format string"
  | loneClosing => "Single '\x7d' encountered in format string"
  | openingInName => "unexpected '\x7b' in field name"
  | unclosedName => "expected '\x7d' before end of string"
  | missingConversion => "end of string while looking for conversion specifier"
  | longConversion => "expected ':' after conversion specifier"
  | unclosedSpecification => "unmatched '\x7b' in format spec"
  | indexTooLarge => "Too many decimal digits in format string"
  | noValueAt index => s!"Replacement index {index} out of range for positional args tuple"
  | noValueNamed name => quoted name

/-- The name of a field, and the rest from the mark that ends the name. Within brackets no
character is a mark. -/
def splitName (bracketed : Bool) : List Char → Except Error (List Char × List Char)
  | [] => .error .unclosedName
  | c :: rest =>
      if bracketed then
        (splitName (c != ']') rest).map fun (name, tail) => (c :: name, tail)
      else if c = '{' then .error .openingInName
      else if c = '}' || c = ':' || c = '!' then .ok ([], c :: rest)
      else (splitName (c == '[') rest).map fun (name, tail) => (c :: name, tail)

/-- Whether a specification is closed, given the number of braces open inside it. -/
def closes (inner : Nat) : List Char → Bool
  | [] => false
  | '{' :: rest => closes (inner + 1) rest
  | '}' :: rest => inner == 0 || closes (inner - 1) rest
  | _ :: rest => closes inner rest

def specificationError? (specification : List Char) : Option Error :=
  if closes 0 specification then none else some .unclosedSpecification

/-- What is wrong behind the name of a field, if anything is. Every character may be a
conversion, a closing brace as well. -/
def tailError? : List Char → Option Error
  | ['!'] => some .missingConversion
  | ['!', _] => some .unclosedSpecification
  | '!' :: _ :: '}' :: _ => none
  | '!' :: _ :: ':' :: specification => specificationError? specification
  | '!' :: _ => some .longConversion
  | ':' :: specification => specificationError? specification
  | _ => none

/-- The greatest index that a field can have. -/
def maxIndex : Nat := 9223372036854775807

/-- What is missing for a name that goes on behind digits: the value at an index if only digits
follow, and else the value of that name. -/
def indexError (name : List Char) (index : Nat) : List Char → Error
  | [] => .noValueAt index
  | c :: rest =>
      match digitValue? c with
      | none => .noValueNamed (String.ofList name)
      | some d =>
          if index * 10 + d ≤ maxIndex then indexError name (index * 10 + d) rest
          else .indexTooLarge

/-- What is missing for the name of a field. A field without a name stands for the first value. -/
def lookupError (name : List Char) : Error :=
  let head := name.takeWhile fun c => c != '.' && c != '['
  indexError head 0 head

/-- Why a field cannot be filled in, from what follows its opening brace. -/
def fieldError (field : List Char) : Error :=
  match splitName false field with
  | .error error => error
  | .ok (name, tail) => (tailError? tail).getD (lookupError name)

def fillChars : List Char → Except Error (List Char)
  | [] => .ok []
  | '{' :: '{' :: rest => (fillChars rest).map ('{' :: ·)
  | '}' :: '}' :: rest => (fillChars rest).map ('}' :: ·)
  | ['{'] => .error .loneOpening
  | '{' :: field => .error (fieldError field)
  | '}' :: _ => .error .loneClosing
  | c :: rest => (fillChars rest).map (c :: ·)

def fill (template : String) : Except Error String :=
  (fillChars template.toList).map String.ofList

end MacroScript.Text.Template
