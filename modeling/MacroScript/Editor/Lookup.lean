import MacroScript.Fault
import MacroScript.Text.Lines
import MacroScript.Token.Basic

/-!
# Looking at a place of a document

The word at a position, the part of a line before a position, and the call that
is still open at the end of such a part. Positions count lines and characters
from zero. A position on a line may lie at most right behind the line's last
character.
-/
namespace MacroScript

structure Position where
  line : Nat
  column : Nat
  deriving DecidableEq, Repr

def isNameChar (c : Char) : Bool := TokenKind.symbol.includes c

def nonempty? (cs : List Char) : Option String :=
  if cs.isEmpty then none else some (String.ofList cs)

/-- The longest run of name characters at the end of a text. -/
def trailingName (cs : List Char) : List Char := (cs.reverse.takeWhile isNameChar).reverse

/-- The longest run of name characters around a place of a line. -/
def wordAround (line : List Char) (column : Nat) : List Char :=
  trailingName (line.take column) ++ (line.drop column).takeWhile isNameChar

def wordAt (text : String) (position : Position) : Except Fault (Option String) :=
  match (Text.lines text.toList)[position.line]? with
  | none => .ok none
  | some line =>
      if line.length < position.column then .error (.foreign .beyondText)
      else .ok (nonempty? (wordAround line position.column))

def lineBefore (text : String) (position : Position) : List Char :=
  match (Text.lines text.toList)[position.line]? with
  | none => []
  | some line => line.take position.column

/-- What stands before the last parenthesis that is open, where the text is given backwards
and `closed` parentheses are still to be matched. -/
def beforeOpenParen (closed : Nat) : List Char → Option (List Char)
  | [] => none
  | c :: rest =>
      if c = ')' then beforeOpenParen (closed + 1) rest
      else if c = '(' then
        match closed with
        | 0 => some rest
        | closed + 1 => beforeOpenParen closed rest
      else beforeOpenParen closed rest

/-- The name of the innermost call that is open at the end of a text, if it has one. -/
def openCallee (cs : List Char) : Option String :=
  (beforeOpenParen 0 cs.reverse).bind fun before =>
    nonempty? (before.takeWhile isNameChar).reverse

/-- The number of commas behind the last opening parenthesis. -/
def argumentIndex (cs : List Char) : Nat :=
  (cs.reverse.takeWhile fun c => c != '(').count ','

end MacroScript
