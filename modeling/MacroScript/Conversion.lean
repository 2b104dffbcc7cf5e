import MacroScript.Expr.Painted
import MacroScript.Fault

/-!
# Between host values and expressions

Making expressions from values of the host, and reading expressions as values of
one type. A reading fails with an invalid cast that shows the expression, and
with a missing accessor where the value is no expression at all.
-/
namespace MacroScript

namespace Expr

def ofInt (n : Int) : Except Fault Expr :=
  match ofInt? n with
  | some e => .ok e
  | none => .error (.foreign (.intTooLarge n))

def expectInt : Expr → Except Fault UInt64
  | int value => .ok value
  | e => .error (.eval (.notAnInt e))

def expectString : Expr → Except Fault String
  | string text => .ok text
  | e => .error (.eval (.notAString e))

def expectVar : Expr → Except Fault String
  | var name => .ok name
  | e => .error (.eval (.notAVariable e))

/-- A call reads as itself. -/
def expectCall : Expr → Except Fault Expr
  | call name args => .ok (call name args)
  | e => .error (.eval (.notACall e))

/-- A truth value is one of two strings. -/
def expectBool (e : Expr) : Except Fault Bool :=
  match e.expectString with
  | .error fault => .error fault
  | .ok text =>
      if text = "true" then .ok true
      else if text = "false" then .ok false
      else .error (.eval (.notABoolean text))

end Expr

namespace HostValue

/-- An integer expression from an integer of the host; a truth value is none. -/
def toIntExpr : HostValue → Except Fault Expr
  | int n => Expr.ofInt n
  | value => .error (.foreign (.notAnInt value.typeName))

/-- A string expression from a text of the host. -/
def toStringExpr : HostValue → Except Fault Expr
  | text content => .ok (.string content)
  | value => .error (.foreign (.notAText value.typeName))

def toExpr : HostValue → Except Fault Expr
  | expr e => .ok e
  | absent => .ok .void
  | text content => .ok (.string content)
  | int n => Expr.ofInt n
  | value => .error (.foreign (.noExpression value.typeName))

def isTruthy : HostValue → Bool
  | expr e => e.isTruthy
  | absent => false
  | bool flag => flag
  | int n => n != 0
  | float x => x.isTruthy
  | text content => !content.isEmpty
  | list items => !items.isEmpty
  | dict => false

/-- Use an accessor of expressions. -/
def access {α : Type} (accessor : String) (use : Expr → Except Fault α) :
    HostValue → Except Fault α
  | expr e => use e
  | value => .error (.foreign (.noAccessor value.typeName accessor))

def expectInt : HostValue → Except Fault UInt64 := access "as_int" Expr.expectInt

def expectString : HostValue → Except Fault String := access "as_string" Expr.expectString

def expectBool : HostValue → Except Fault Bool := access "as_bool" Expr.expectBool

/-- The source text of a value, which only expressions have. -/
def written : HostValue → Except Fault String
  | expr e => e.written.mapError fun problem => .foreign (.unwritable problem)
  | value => .error (.foreign (.notRenderable value))

def painted (builtins : List String) (options : PaintOptions) : HostValue → Except Fault String
  | expr e => (e.painted builtins options).mapError fun problem => .foreign (.unwritable problem)
  | value => .error (.foreign (.notRenderable value))

end HostValue
end MacroScript
