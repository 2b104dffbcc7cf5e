import MacroScript.Double.Written
import MacroScript.Expr.Basic

/-!
# Host values

What a host program hands to the interpreter or gets from it: an expression, or
a value of the host's own that is not one. A few of the host's values stand for
expressions; the others can only be named in messages. A function that is not
held to the protocol may return any of them, and a host may bind a free name to
any of them, so an evaluation may end in one.

The parts of an expression have the types that they are declared with. A host
that puts a plain value in the place of a name or an argument goes against the
declarations; what comes of it is not modelled.
-/
namespace MacroScript

/-- An expression or a plain value of the host. -/
inductive HostValue where
  | expr (e : Expr)
  | absent
  | bool (flag : Bool)
  | int (n : Int)
  | float (x : Double)
  | text (content : String)
  | list (items : List HostValue)
  | dict
  deriving Inhabited, Repr

namespace HostValue

def typeName : HostValue → String
  | expr e => e.typeName
  | absent => "NoneType"
  | bool _ => "bool"
  | int _ => "int"
  | float _ => "float"
  | text _ => "str"
  | list _ => "list"
  | dict => "dict"

mutual

def describe : HostValue → String
  | expr e => e.describe
  | absent => "None"
  | bool true => "True"
  | bool false => "False"
  | int n => toString n
  | float x => x.written
  | text content => Text.quoted content
  | list items => s!"[{describeAll items}]"
  | dict => "\x7b\x7d"

def describeAll : List HostValue → String
  | [] => ""
  | [v] => v.describe
  | v :: vs => s!"{v.describe}, {describeAll vs}"

end

/-- A truth value counts as a number. -/
def number? : HostValue → Option Int
  | bool flag => some (if flag then 1 else 0)
  | int n => some n
  | _ => none

mutual

/-- Equality as the host sees it: an expression equals only an equal expression, numbers of
any types are equal when their exact values are, and other values only within a type. -/
def equal : HostValue → HostValue → Bool
  | expr a, expr b => a.eql b
  | absent, absent => true
  | float a, float b => a.equal b
  | float a, b => b.number?.any a.equalsInt
  | a, float b => a.number?.any b.equalsInt
  | text a, text b => a == b
  | list as, list bs => equalAll as bs
  | dict, dict => true
  | bool a, b => b.number? == some (if a then 1 else 0)
  | int a, b => b.number? == some a
  | _, _ => false

def equalAll : List HostValue → List HostValue → Bool
  | [], [] => true
  | a :: as, b :: bs => equal a b && equalAll as bs
  | _, _ => false

end

def asExpr? : HostValue → Option Expr
  | expr e => some e
  | _ => none

end HostValue
end MacroScript
