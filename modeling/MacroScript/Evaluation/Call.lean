import MacroScript.Evaluation.Builtins
import MacroScript.Reading.Program

/-!
# Calling functions

Calls of defined functions and of host functions in terms of an evaluator. A
defined function binds its parameters to the unevaluated arguments, evaluates
its body and removes the bindings again, whether or not the body succeeded. A
host function has its requests answered one by one.

The requests that read and run whole texts are the session's own way of doing
so, and are stated here for any evaluator.
-/
namespace MacroScript

namespace DefinedFn

open Session

/-- Bind parameters in order up to the first that is bound already. The answer lists the
parameters that were bound, and the fault if there is one. -/
def bindFormals : List (String × Expr) → Action Session (List String × Option Fault)
  | [] => pure ([], none)
  | (formal, actual) :: rest => do
      match ← (bindVar formal (.expr actual)).attempt with
      | .error fault => return ([], some fault)
      | .ok _ =>
          let (bound, refusal) ← bindFormals rest
          return (formal :: bound, refusal)

def unbindFormals : List String → Action Session Unit
  | [] => pure ()
  | formal :: rest => do
      unbindVar formal
      unbindFormals rest

def call (ev : Evaluator) (fn : DefinedFn) (args : List Expr) : Action Session HostValue := do
  if args.length ≠ fn.formals.length then
    throw (.eval (.definedArity fn.name fn.formals.length args.length))
  let (bound, refusal) ← bindFormals (fn.formals.zip args)
  let evaluation := match refusal with
    | some fault => throw fault
    | none => ev fn.body
  Action.ensuring evaluation (unbindFormals bound)

end DefinedFn

/-- Evaluate at the top: the scratch scope is reset afterwards, unless another evaluation is in
progress. -/
def Session.atTop {α : Type} (evaluation : Action Session α) : Action Session α :=
  evaluation.ensuring do
    if (← get).depth = 0 then resetScratch

namespace Evaluator

open Session

def evaluateTop (ev : Evaluator) (e : Expr) : Action Session HostValue := atTop (ev e)

def evaluateEach (ev : Evaluator) : List Expr → Action Session (List HostValue)
  | [] => pure []
  | e :: es => do
      let value ← ev.evaluateTop e
      let values ← evaluateEach ev es
      return value :: values

/-- The result of a run: nothing is the unit, and several values are a list. -/
def combined : List HostValue → HostValue
  | [] => .expr .void
  | [value] => value
  | values => .list values

/-- Run a text. Everything before the first parse error is evaluated before it is raised. -/
def run (ev : Evaluator) (text : String) (sourceName : Option String) :
    Action Session HostValue := do
  let program := Program.ofText (← get).parseLimit text sourceName
  let values ← ev.evaluateEach program.exprs
  match program.error with
  | some error => throw (.malformed error)
  | none => return combined values

/-- What a chat host shows its user about a fault, if the fault is one to be shown. A host that
reports a parse error of its own words it itself. -/
def shownFault? : Fault → Option String
  | .malformed error => some error.written
  | .reported report => some report.text
  | .eval error => some error.kind.userMessage
  | _ => none

/-- Run a text for a chat host: nothing on success, or the text to show. -/
def execute (ev : Evaluator) (text : String) (sourceName : Option String) :
    Action Session (Option String) := do
  match ← (ev.run text sourceName).attempt with
  | .ok _ => return none
  | .error fault =>
      match shownFault? fault with
      | some shown => return some shown
      | none => throw fault

end Evaluator

namespace HostProgram

open Session

def perform (ev : Evaluator) : HostProgram → Action Session HostValue
  | .done result => pure result
  | .fail fault => throw fault
  | .evaluate e next => do
      let answer ← (ev e).attempt
      perform ev (next answer)
  | .evaluateTop e next => do
      let answer ← (ev.evaluateTop e).attempt
      perform ev (next answer)
  | .run text sourceName next => do
      let answer ← (ev.run text sourceName).attempt
      perform ev (next answer)
  | .execute text sourceName next => do
      let answer ← (ev.execute text sourceName).attempt
      perform ev (next answer)
  | .resetScratch next => do
      Session.resetScratch
      perform ev next
  | .close next => do
      Session.close
      perform ev next
  | .observe next => do
      let session ← get
      perform ev (next session.view)
  | .setVar name value next => do
      Session.setVar name (.expr value)
      perform ev next
  | .bindVar name value next => do
      let answer ← (Session.bindVar name (.expr value)).attempt
      perform ev (next answer)
  | .unbindVar name next => do
      let answer ← (Session.unbindVar name).attempt
      perform ev (next answer)

end HostProgram

namespace Function

open Session

/-- Call a function without regard to the protocol for host functions. -/
def callRaw (ev : Evaluator) (fn : Function) (args : List Expr) : Action Session HostValue :=
  match fn.body with
  | .builtin b => b.call ev args
  | .defined fn => fn.call ev args
  | .hosted registration host => do
      let number ← countCall registration
      (host number args).perform ev

/-- The fault of a host function as its callers see it. The library's own errors, exhausted memory
and what ends the program pass; everything else is wrapped. The text is asked for while wrapping, so
if that fails, its failure takes the place of the error. -/
def guardedFault (name : String) : Fault → Fault
  | .foreign reason =>
      if reason.kind.isWrapped then .eval (.hostFailed name reason) else .foreign reason
  | .unspeakable kind failure =>
      if kind.isWrapped then failure else .unspeakable kind failure
  | fault => fault

def guardedResult (name : String) : HostValue → Except Fault HostValue
  | .expr e => .ok (.expr e)
  | .absent => .ok (.expr .void)
  | value => .error (.eval (.hostReturned name value.typeName))

def call (ev : Evaluator) (fn : Function) (args : List Expr) : Action Session HostValue :=
  if fn.isHost then do
    match ← (fn.callRaw ev args).attempt with
    | .ok value => Action.ofExcept (guardedResult fn.name value)
    | .error fault => throw (guardedFault fn.name fault)
  else fn.callRaw ev args

end Function
end MacroScript
