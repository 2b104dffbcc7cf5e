import MacroScript.Evaluation.Call

/-!
# Evaluation

A literal is its own value, a variable has the value of what it is bound to, and
a call is left to the function of its name. A plain value of the host that a
variable is bound to is its own value. Every nested evaluation counts against the
limit on the depth, so a binding that refers back to itself ends in an error.

The evaluator recurses on a stock of levels. Each level is a nested evaluation,
so the room up to the depth limit is enough as long as the depth only follows
the nesting. A host that closes the session resets the depth in the midst of an
evaluation; but then no function is left to call, and the room of one more depth
limit is enough for what follows. With no level left the answer is the error
that the limit itself gives.

The stack of the machine that runs the evaluator is not modelled. The limit on
the depth is there to keep evaluations within it, and is assumed to be set so
that it does.
-/
namespace MacroScript

open Session

/-- Evaluate what a variable is bound to. A plain value is an evaluation with nothing to do. -/
def evaluateBound (ev : Evaluator) : HostValue → Action Session HostValue
  | .expr e => ev e
  | value => do
      enter
      leave
      return value

/-- One evaluation in terms of the nested ones. -/
def evaluateStep (ev : Evaluator) : Evaluator
  | .var name => do
      let bound ← lookupVar name
      evaluateBound ev bound
  | .call name args => do
      let fn ← lookupFunction name
      fn.call ev args
  | literal => pure (.expr literal)

/-- Evaluate with a stock of levels. -/
def evaluateWith : Nat → Evaluator
  | 0, _ => do
      throw (.eval (.recursionLimit (← get).maxDepth))
  | levels + 1, e => do
      enter
      (evaluateStep (evaluateWith levels) e).ensuring leave

/-- The stock of levels that an evaluation in this state may need. -/
def Session.levels (session : Session) : Nat :=
  (session.maxDepth - session.depth).toNat + session.maxDepth.toNat

def evaluate : Evaluator := fun e session => evaluateWith session.levels e session

namespace Session

def evaluateValue (value : HostValue) : Action Session HostValue := evaluateBound evaluate value

def evaluateTop (value : HostValue) : Action Session HostValue := atTop (evaluateValue value)

def run (text : String) (sourceName : Option String) : Action Session HostValue :=
  Evaluator.run evaluate text sourceName

def execute (text : String) (sourceName : Option String) : Action Session (Option String) :=
  Evaluator.execute evaluate text sourceName

/-- Run a text and close the session, whatever happens. -/
def runAndClose (text : String) (sourceName : Option String) : Action Session HostValue :=
  (run text sourceName).ensuring close

end Session
end MacroScript
