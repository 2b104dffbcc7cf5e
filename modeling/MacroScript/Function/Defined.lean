import MacroScript.Expr.Basic

/-!
# Defined functions

A function that a program makes for itself: a name, the names of its formal
parameters, and a body. The size is what the function costs in the scope that
keeps it.
-/
namespace MacroScript

/-- A function made by `define`. -/
structure DefinedFn where
  name : String
  formals : List String
  body : Expr
  deriving DecidableEq, Repr

namespace DefinedFn

/-- The characters of all names of the function. -/
def size (fn : DefinedFn) : Nat :=
  fn.formals.foldr (fun formal total => formal.length + total) fn.name.length

def describe (fn : DefinedFn) : String :=
  let params := String.intercalate ", " fn.formals
  s!"<defined {fn.name}({params})>"

end DefinedFn
end MacroScript
