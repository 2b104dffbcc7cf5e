import MacroScript.Function.Builtin
import MacroScript.Function.Defined
import MacroScript.Function.HostProgram

/-!
# Functions

An entry of the function table. All functions receive their arguments
unevaluated and decide themselves what to evaluate, so conditionals and binding
forms are ordinary functions. A function of the host is held to a protocol: it
returns an expression or nothing, and its own faults are wrapped.
-/
namespace MacroScript

/-- What a function does. A host function has the number of its registration. -/
inductive FunctionBody where
  | builtin (builtin : Builtin)
  | defined (fn : DefinedFn)
  | hosted (registration : Nat) (fn : HostFunction)

/-- A named function, and whether it is held to the protocol for host functions. -/
structure Function where
  name : String
  isHost : Bool
  body : FunctionBody

namespace Function

def ofBuiltin (b : Builtin) : Function := ⟨b.name, false, .builtin b⟩

def ofDefined (fn : DefinedFn) : Function := ⟨fn.name, false, .defined fn⟩

def describe (fn : Function) : String :=
  if fn.isHost then s!"<host {fn.name}>" else s!"<builtin {fn.name}>"

def defined? (fn : Function) : Option DefinedFn :=
  match fn.body with
  | .defined fn => some fn
  | _ => none

end Function
end MacroScript
