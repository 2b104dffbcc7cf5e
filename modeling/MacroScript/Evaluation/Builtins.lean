import MacroScript.Session

/-!
# What the builtins do

The builtins in terms of an evaluator for their arguments. Each checks the
number of its arguments first and evaluates what it needs from left to right.
`echo` and `repeat` collect text in a buffer of the scratch scope, which they
release whatever happens.
-/
namespace MacroScript

abbrev Evaluator := Expr → Action Session HostValue

namespace Builtin

open Session

def arity (b : Builtin) {α : Type} : Action Session α := throw (.eval (.builtinArity b))

def evalInt (ev : Evaluator) (e : Expr) : Action Session UInt64 := do
  let value ← ev e
  Action.ofExcept value.expectInt

def evalBool (ev : Evaluator) (e : Expr) : Action Session Bool := do
  let value ← ev e
  Action.ofExcept value.expectBool

/-- What `echo` prints for a value, if it prints it. -/
def printed? : HostValue → Option String
  | .expr (.int value) => some (toString value.toNat)
  | .expr (.string text) => some text
  | _ => none

/-- Evaluate arguments and collect what they print. -/
def printAll (ev : Evaluator) (id : BufferId) : List Expr → Action Session Unit
  | [] => pure ()
  | arg :: args => do
      let value ← ev arg
      match printed? value with
      | some text => onScratch (Scope.write id text)
      | none => throw (.eval (.notPrintable value))
      printAll ev id args

/-- Give a buffer back. Its number is not used again. -/
def discard (id : BufferId) : Action Session Unit :=
  onScratch ((Scope.release id).ensuring (Scope.forget id))

/-- Collect text in a buffer of the scratch scope, which is given back afterwards. -/
def withBuffer {α : Type} (action : BufferId → Action Session α) : Action Session α := do
  let id ← onScratch Scope.newBuffer
  (action id).ensuring (discard id)

def callEcho (ev : Evaluator) (args : List Expr) : Action Session HostValue := do
  let text ← withBuffer fun id => do
    printAll ev id args
    onScratch (Scope.contents id)
  emit text
  return .expr .void

def repeatBody (ev : Evaluator) (body : Expr) (id : BufferId) : Nat → Action Session Unit
  | 0 => pure ()
  | count + 1 => do
      match ← ev body with
      | .expr (.string text) => onScratch (Scope.write id text)
      | _ => pure ()
      repeatBody ev body id count

/-- Evaluate a body so many times; the collected text is the result unless it is empty. -/
def callRepeat (ev : Evaluator) (body count : Expr) : Action Session HostValue := do
  let count ← evalInt ev count
  withBuffer fun id => do
    repeatBody ev body id count.toNat
    if ((← get).scratch.buffer id).size = 0 then return .expr .void
    else return .expr (.string (← onScratch (Scope.contents id)))

/-- Sum the values of arguments on top of a total, modulo the number of integers. -/
def sumAll (ev : Evaluator) (total : UInt64) : List Expr → Action Session UInt64
  | [] => pure total
  | arg :: args => do
      let value ← evalInt ev arg
      sumAll ev (total + value) args

/-- Whether all arguments are true; the first that is not ends the evaluation. -/
def allTrue (ev : Evaluator) : List Expr → Action Session Bool
  | [] => pure true
  | arg :: args => do
      if ← evalBool ev arg then allTrue ev args else return false

def evalAll (ev : Evaluator) : List Expr → Action Session Unit
  | [] => pure ()
  | arg :: args => do
      let _ ← ev arg
      evalAll ev args

def callCompare (ev : Evaluator) (test : UInt64 → UInt64 → Bool) (a b : Expr) :
    Action Session HostValue := do
  let left ← evalInt ev a
  let right ← evalInt ev b
  return .expr (.ofBool (test left right))

/-- Compare the values of two arguments as trees. A value that is no expression cannot be
asked, and an expression never equals it. -/
def callEql (ev : Evaluator) (a b : Expr) : Action Session HostValue := do
  let left ← ev a
  let right ← ev b
  match left, right with
  | .expr left, .expr right => return .expr (.ofBool (left.eql right))
  | .expr _, _ => return .expr (.ofBool false)
  | left, _ => throw (.foreign (.noAccessor left.typeName "eql"))

def callLet (ev : Evaluator) (target value : Expr) : Action Session HostValue := do
  let name ← Action.ofExcept target.expectVar
  let value ← ev value
  setValue name value
  return .expr .void

/-- The names in a list of parameters, each of which has to be new. -/
def parameterNames (seen : List String) : List Expr → Except Fault (List String)
  | [] => .ok seen
  | .var name :: params =>
      if seen.contains name then .error (.eval (.repeatedParameter name))
      else parameterNames (seen ++ [name]) params
  | param :: _ => .error (.eval (.notAParameter param))

/-- The formal parameters of a definition, which are spelled as a call of `args`. -/
def formals : Expr → Except Fault (List String)
  | .call "args" params => parameterNames [] params
  | params => .error (.eval (.notParameters params))

def definition (target params body : Expr) : Except Fault DefinedFn :=
  match target with
  | .var name => (formals params).map fun formals => ⟨name, formals, body⟩
  | target => .error (.eval (.notAFunctionName target))

/-- Make a function and keep it in the arena scope. -/
def callDefine (target params body : Expr) : Action Session HostValue := do
  let fn ← Action.ofExcept (definition target params body)
  onArena (Scope.keep (.defined fn) fn.size)
  modify fun session => session.install fn.name (.ofDefined fn)
  return .expr .void

def call (ev : Evaluator) (b : Builtin) (args : List Expr) : Action Session HostValue :=
  match b, args with
  | .echo, _ :: _ | .log, _ :: _ => callEcho ev args
  | .ifThenElse, [cond, yes, no] => do
      if ← evalBool ev cond then ev yes else ev no
  | .eql, [a, b] => callEql ev a b
  | .not, [cond] => do
      let flag ← evalBool ev cond
      return .expr (.ofBool !flag)
  | .and, _ :: _ => do
      let flag ← allTrue ev args
      return .expr (.ofBool flag)
  | .gt, [a, b] => callCompare ev (fun a b => b < a) a b
  | .gte, [a, b] => callCompare ev (fun a b => b ≤ a) a b
  | .ls, [a, b] => callCompare ev (fun a b => a < b) a b
  | .lse, [a, b] => callCompare ev (fun a b => a ≤ b) a b
  | .add, _ :: _ => do
      let total ← sumAll ev 0 args
      return .expr (.int total)
  | .letVar, [target, value] => callLet ev target value
  | .repeatTimes, [body, count] => callRepeat ev body count
  | .doAll, args => do
      evalAll ev args
      return .expr .void
  | .define, [target, params, body] => callDefine target params body
  | b, _ => arity b

end Builtin
end MacroScript
