import MacroScript.Expr.Written

/-!
# Expressions in colour

The source text of a tree with terminal colours, one for each variant. Calls of
known builtins have a colour of their own. Every group of colours can be turned
off; with all of them off the painted text is the plain one.
-/
namespace MacroScript

structure PaintOptions where
  vars : Bool := true
  functions : Bool := true
  builtins : Bool := true
  literals : Bool := true
  deriving DecidableEq, Repr

inductive Paint where
  | var
  | function
  | builtin
  | int
  | string
  | void
  deriving DecidableEq, Repr

namespace Paint

def code : Paint → String
  | var => "94"
  | function => "92"
  | builtin => "90"
  | int => "95"
  | string => "93"
  | void => "36"

/-- The sequence that turns a colour on. -/
def start (paint : Paint) : String := s!"\x1b[{paint.code}m"

/-- The sequence that turns every colour off. -/
def reset : String := "\x1b[0m"

/-- A text in a colour, if its group is painted. -/
def apply (paint : Paint) (enabled : Bool) (text : String) : String :=
  if enabled then paint.start ++ text ++ reset else text

end Paint

namespace Expr

def paintedHead (builtins : List String) (options : PaintOptions) (name : String) : String :=
  if builtins.contains name then Paint.builtin.apply options.builtins name
  else Paint.function.apply options.functions name

mutual

/-- The painted source text of a tree, or its first string that cannot be written. -/
def painted (builtins : List String) (options : PaintOptions) :
    Expr → Except Unwritable String
  | void => .ok (Paint.void.apply options.literals writtenVoid)
  | int value => .ok (Paint.int.apply options.literals (toString value.toNat))
  | string text => (writtenString text).map (Paint.string.apply options.literals)
  | var name => .ok (Paint.var.apply options.vars name)
  | call name args =>
      (paintedAll builtins options args).map fun inside =>
        s!"{paintedHead builtins options name}({inside})"

def paintedAll (builtins : List String) (options : PaintOptions) :
    List Expr → Except Unwritable String
  | [] => .ok ""
  | [e] => e.painted builtins options
  | e :: es =>
      (e.painted builtins options).bind fun first =>
        (paintedAll builtins options es).map fun others => s!"{first}, {others}"

end

end Expr
end MacroScript
