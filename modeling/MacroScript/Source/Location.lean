/-!
# Locations

A place in a source text for a diagnostic. Rows and columns are counted from
zero inside the library and from one in every written form.
-/
namespace MacroScript

/-- A row and a column of a source text that may have a name. -/
structure Location where
  row : Nat
  column : Nat
  sourceName : Option String
  deriving DecidableEq, Repr

namespace Location

/-- The written form `name:row:column`, without the name where there is none. -/
def written (place : Location) : String :=
  let position := s!"{place.row + 1}:{place.column + 1}"
  match place.sourceName with
  | some name => s!"{name}:{position}"
  | none => position

end Location
end MacroScript
