import MacroScript.Action
import MacroScript.Conversion
import MacroScript.Function.Basic
import MacroScript.Settings

/-!
# Sessions

The state of an interpreter: the tables of variables and functions, the two
memory scopes, the depth of the evaluation in progress with its limit, the limit
on the nesting of texts that are run, the texts emitted so far with the last one
first, and how often each registered function was called. A variable is bound to
an expression, which every reference evaluates again; a host may also bind a free
name to a plain value. There is one flat table of variables; defined functions
bind their parameters in it for the time of a call.

The arena scope keeps the functions made by `define`; the scratch scope backs
the texts under construction and is reset behind every evaluation at the top.
-/
namespace MacroScript

/-- The state of an interpreter. -/
structure Session where
  vars : Table HostValue
  functions : Table Function
  arena : Scope
  scratch : Scope
  maxDepth : Int
  depth : Int
  parseLimit : Int
  emitted : List String
  calls : List Nat

namespace Session

def fresh (settings : Settings) : Session where
  vars := .empty
  functions := .empty
  arena := .fresh "arena" settings.arenaLimit
  scratch := .fresh "scratch" settings.scratchLimit
  maxDepth := settings.evalDepth
  depth := 0
  parseLimit := settings.parseDepth
  emitted := []
  calls := []

/-- Install a function under a name, in place of any other. -/
def install (session : Session) (name : String) (fn : Function) : Session :=
  { session with functions := session.functions.insert name fn }

/-- Install all builtins, in place of functions of the same names. -/
def installBuiltins (session : Session) : Session :=
  Builtin.all.foldl (fun session b => session.install b.name (.ofBuiltin b)) session

/-- Make a function of the host, with a number of its own. -/
def registerHost (session : Session) (name : String) (isHost : Bool) (fn : HostFunction) :
    Function × Session :=
  let function : Function := ⟨name, isHost, .hosted session.calls.length fn⟩
  (function, { session.install name function with calls := session.calls ++ [0] })

def view (session : Session) : View :=
  ⟨session.vars, session.depth, session.scratch, session.arena⟩

/-- Release the tables and both scopes. -/
def closed (session : Session) : Session :=
  { session with
    vars := .empty
    functions := .empty
    scratch := session.scratch.reset
    arena := session.arena.reset
    depth := 0 }

def onScratch {α : Type} (action : Action Scope α) : Action Session α :=
  action.within (·.scratch) fun session scratch => { session with scratch := scratch }

def onArena {α : Type} (action : Action Scope α) : Action Session α :=
  action.within (·.arena) fun session arena => { session with arena := arena }

/-- Bind a name, whether or not it is bound. -/
def setVar (name : String) (value : HostValue) : Action Session Unit :=
  modify fun session => { session with vars := session.vars.insert name value }

/-- Bind a name to a value that has to be an expression. -/
def setValue (name : String) : HostValue → Action Session Unit
  | .expr e => setVar name (.expr e)
  | value => throw (.foreign (.notBindable name value))

/-- Bind a name to the expression that a value stands for. -/
def setHostVar (name : String) (value : HostValue) : Action Session Unit := do
  let e ← Action.ofExcept value.toExpr
  setVar name (.expr e)

/-- What a name is bound to, unevaluated. -/
def lookupVar (name : String) : Action Session HostValue := do
  match (← get).vars.find? name with
  | some value => return value
  | none => throw (.eval (.unknownVariable name))

/-- Bind a name that is free, to any value. -/
def bindVar (name : String) (value : HostValue) : Action Session Unit := do
  if (← get).vars.contains name then throw (.eval (.shadowing name))
  setVar name value

/-- Remove a binding, which has to exist. -/
def unbindVar (name : String) : Action Session Unit := do
  if (← get).vars.contains name then
    modify fun session => { session with vars := session.vars.erase name }
  else throw (.foreign (.bindingVanished name))

def lookupFunction (name : String) : Action Session Function := do
  match (← get).functions.find? name with
  | some fn => return fn
  | none => throw (.eval (.unknownFunction name))

def enter : Action Session Unit := do
  let session ← get
  if session.maxDepth ≤ session.depth then throw (.eval (.recursionLimit session.maxDepth))
  set { session with depth := session.depth + 1 }

def leave : Action Session Unit :=
  modify fun session => { session with depth := session.depth - 1 }

def emit (text : String) : Action Session Unit :=
  modify fun session => { session with emitted := text :: session.emitted }

/-- The texts emitted so far, in order. -/
def output (session : Session) : List String := session.emitted.reverse

/-- What a session without an output of its own prints: every text on a line. -/
def printed (session : Session) : String := String.join (session.output.map (· ++ "\n"))

/-- A session with the same state whose output starts anew. -/
def withoutOutput (session : Session) : Session := { session with emitted := [] }

def limitScratch (session : Session) (limit : Option Int) : Session :=
  { session with scratch := .fresh "scratch" limit }

def limitArena (session : Session) (limit : Option Int) : Session :=
  { session with arena := .fresh "arena" limit }

def installAlias (name target : String) : Action Session Function := do
  let fn ← lookupFunction target
  modify fun session => session.install name fn
  return fn

def resetScratch : Action Session Unit :=
  modify fun session => { session with scratch := session.scratch.reset }

def close : Action Session Unit := modify closed

/-- Count a call of a registered function and give its number. -/
def countCall (registration : Nat) : Action Session Nat := do
  let number := (← get).calls[registration]?.getD 0 + 1
  modify fun session => { session with calls := session.calls.set registration number }
  return number

def describe (session : Session) : String :=
  s!"<Environment vars={describeVars session.vars} functions={session.functions.size} "
    ++ s!"{session.arena.describe} {session.scratch.describe}>"

end Session
end MacroScript
