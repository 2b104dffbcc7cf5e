/-!
# The version of the language

The version that an interpreter and an editor service report.
-/
namespace MacroScript

/-- The version in the usual three parts. -/
def version : String := "0.3.0"

end MacroScript
