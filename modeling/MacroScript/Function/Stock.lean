import MacroScript.Conversion
import MacroScript.Function.HostProgram

/-!
# Stock host functions

A collection of host functions that together make every request a host can make.
They serve for trying out a session: some return or raise what they are told,
some show the state of the session, some call back into it, and some change its
variables. A function that uses an argument it was not given fails with the
host's own fault.
-/
namespace MacroScript

inductive StockFunction where
  | nothing
  | constant (value : Except Fault HostValue)
  | raise (fault : Fault)
  | count
  | argumentCount
  | stats
  | close
  | resetScratch
  | vars
  | sequence
  | concat
  | evaluate
  | evaluateTop
  | run
  | execute
  | quote
  | source
  | recover
  | unbind
  | bind
  | set
  | has
  | get

namespace StockFunction

open HostProgram

def withArgument (args : List Expr) (position : Nat) (next : Expr → HostProgram) : HostProgram :=
  match args[position]? with
  | some arg => next arg
  | none => .fail (.foreign .missingArgument)

def withName (args : List Expr) (next : String → HostProgram) : HostProgram :=
  withArgument args 0 fun arg => orFail next arg.expectVar

def withText (args : List Expr) (next : String → HostProgram) : HostProgram :=
  withArgument args 0 fun arg =>
    .evaluate arg (orFail fun value => orFail next value.expectString)

/-- Evaluate all arguments and return the last value. -/
def sequenceFrom (last : HostValue) : List Expr → HostProgram
  | [] => .done last
  | arg :: args => .evaluate arg (orFail fun value => sequenceFrom value args)

def concatFrom (joined : String) : List Expr → HostProgram
  | [] => .done (.expr (.string joined))
  | arg :: args =>
      .evaluate arg (orFail fun value =>
        orFail (fun text => concatFrom (joined ++ text) args) value.expectString)

/-- The value of an evaluation, or the class of its error as a string. -/
def recovered : Except Fault HostValue → HostProgram
  | .ok value => .done value
  | .error (.eval error) => .done (.expr (.string error.kind.name))
  | .error fault => .fail fault

def ofShown : Option String → HostValue
  | some text => .expr (.string text)
  | none => .expr .void

/-- The state of the session in one line. -/
def statsOf (view : View) : String :=
  s!"{view.depth} {view.scratch.describe} {view.arena.describe}"

def program (fn : StockFunction) : HostFunction := fun number args =>
  match fn with
  | nothing => .done .absent
  | constant value => ofExcept value
  | raise fault => .fail fault
  | count => .done (.expr (.int number.toUInt64))
  | argumentCount => .done (.expr (.int args.length.toUInt64))
  | stats => .observe fun view => .done (.expr (.string (statsOf view)))
  | close => .close (.done .absent)
  | resetScratch => .resetScratch (.done .absent)
  | vars => .observe fun view => .done (.expr (.string (describeVars view.vars)))
  | sequence => sequenceFrom .absent args
  | concat => concatFrom "" args
  | evaluate => withArgument args 0 fun arg => .evaluate arg ofExcept
  | evaluateTop => withArgument args 0 fun arg => .evaluateTop arg ofExcept
  | run => withText args fun text => .run text (some "inner") ofExcept
  | execute => withText args fun text => .execute text none (orFail fun s => .done (ofShown s))
  | quote => withArgument args 0 fun arg => .done (.expr arg)
  | source =>
      withArgument args 0 fun arg =>
        orFail (fun text => .done (.expr (.string text))) (HostValue.expr arg).written
  | recover => withArgument args 0 fun arg => .evaluate arg recovered
  | unbind => withName args fun name => .unbindVar name (orFail fun _ => .done .absent)
  | bind =>
      withName args fun name => withArgument args 1 fun value =>
        .bindVar name value (orFail fun _ => .done .absent)
  | set =>
      withName args fun name => withArgument args 1 fun value =>
        .setVar name value (.done .absent)
  | has =>
      withName args fun name => .observe fun view =>
        .done (.expr (.ofBool (view.vars.contains name)))
  | get =>
      withName args fun name => .observe fun view =>
        match view.vars.find? name with
        | some value => .done value
        | none => .fail (.eval (.unknownVariable name))

end StockFunction
end MacroScript
