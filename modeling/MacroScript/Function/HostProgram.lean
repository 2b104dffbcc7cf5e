import MacroScript.Fault
import MacroScript.Scope
import MacroScript.Table

/-!
# Host programs

What a host function does, as a finite tree of requests to the session that
calls it. Each request waits for its answer and the next step may depend on it,
on a value as well as on a fault, so a host may recover from whatever it likes.
A tree has no infinite branch: a host asks finitely often, whatever the answers.

Nothing is said here about how a request is answered. Which requests a host may
make is a predicate on its tree.
-/
namespace MacroScript

/-- What a host can see of a session. -/
structure View where
  vars : Table HostValue
  depth : Int
  scratch : Scope
  arena : Scope

def describeVars (vars : Table HostValue) : String :=
  let entries := vars.entries.map fun entry => s!"{entry.1}: {entry.2.describe}"
  "\x7b" ++ String.intercalate ", " entries ++ "\x7d"

/-- A finite tree of requests that ends in a value or a fault. -/
inductive HostProgram where
  /-- Return a value. -/
  | done (result : HostValue)
  /-- Fail. -/
  | fail (fault : Fault)
  /-- Evaluate an expression inside the current evaluation. -/
  | evaluate (e : Expr) (next : Except Fault HostValue → HostProgram)
  /-- Evaluate an expression as a session does at the top. -/
  | evaluateTop (e : Expr) (next : Except Fault HostValue → HostProgram)
  /-- Run a text. -/
  | run (text : String) (sourceName : Option String) (next : Except Fault HostValue → HostProgram)
  /-- Run a text for a chat host. -/
  | execute (text : String) (sourceName : Option String)
      (next : Except Fault (Option String) → HostProgram)
  /-- Reset the scratch scope. -/
  | resetScratch (next : HostProgram)
  /-- Close the session. -/
  | close (next : HostProgram)
  /-- Look at the session. -/
  | observe (next : View → HostProgram)
  /-- Bind a name, whether or not it is bound. -/
  | setVar (name : String) (value : Expr) (next : HostProgram)
  /-- Bind a name that is free. -/
  | bindVar (name : String) (value : Expr) (next : Except Fault Unit → HostProgram)
  /-- Remove a binding. -/
  | unbindVar (name : String) (next : Except Fault Unit → HostProgram)

namespace HostProgram

/-- Go on with a value and pass a fault through. -/
def orFail {α : Type} (next : α → HostProgram) : Except Fault α → HostProgram
  | .ok a => next a
  | .error fault => .fail fault

def ofExcept (result : Except Fault HostValue) : HostProgram := orFail .done result

end HostProgram

/-- A host function: the number of the call, counted from one for each registration, and the
unevaluated arguments determine what it does. -/
abbrev HostFunction := Nat → List Expr → HostProgram

end MacroScript
