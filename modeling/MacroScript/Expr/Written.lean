import MacroScript.Expr.Basic

/-!
# Expressions as source text

The text that reads back as a tree. Strings have no escapes, so a string is
written between quotes of a kind that it does not contain, and one that contains
both kinds has no written form. The unit is written as the call `do()`.
-/
namespace MacroScript

/-- A string that contains both kinds of quote. -/
structure Unwritable where
  text : String
  deriving DecidableEq, Repr

def Unwritable.message (problem : Unwritable) : String :=
  s!"string {Text.quoted problem.text} contains both quote characters and cannot be "
    ++ "written as source"

namespace Expr

/-- A string literal; double quotes are preferred. -/
def writtenString (text : String) : Except Unwritable String :=
  if !text.toList.contains '"' then .ok s!"\"{text}\""
  else if !text.toList.contains '\'' then .ok s!"'{text}'"
  else .error ⟨text⟩

def writtenVoid : String := "do()"

mutual

/-- The source text of a tree, or its first string that cannot be written. -/
def written : Expr → Except Unwritable String
  | void => .ok writtenVoid
  | int value => .ok (toString value.toNat)
  | string text => writtenString text
  | var name => .ok name
  | call name args => (writtenAll args).map fun inside => s!"{name}({inside})"

def writtenAll : List Expr → Except Unwritable String
  | [] => .ok ""
  | [e] => e.written
  | e :: es => e.written.bind fun first => (writtenAll es).map fun others => s!"{first}, {others}"

end

end Expr
end MacroScript
