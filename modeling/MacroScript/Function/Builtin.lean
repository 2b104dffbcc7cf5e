/-!
# The builtin functions

The names of the builtins, in the order in which they are listed and registered,
with the signature that an editor shows for each. `echo` and `log` are two names
of one function.
-/
namespace MacroScript

inductive Builtin where
  | echo
  | log
  | ifThenElse
  | eql
  | not
  | and
  | gt
  | gte
  | ls
  | lse
  | add
  | letVar
  | repeatTimes
  | doAll
  | define
  deriving DecidableEq, Repr

namespace Builtin

/-- All builtins in table order. -/
def all : List Builtin :=
  [.echo, .log, .ifThenElse, .eql, .not, .and, .gt, .gte, .ls, .lse, .add, .letVar,
    .repeatTimes, .doAll, .define]

theorem mem_all (b : Builtin) : b ∈ all := by cases b <;> decide

def name : Builtin → String
  | echo => "echo"
  | log => "log"
  | ifThenElse => "if"
  | eql => "eql"
  | not => "not"
  | and => "and"
  | gt => "gt"
  | gte => "gte"
  | ls => "ls"
  | lse => "lse"
  | add => "add"
  | letVar => "let"
  | repeatTimes => "repeat"
  | doAll => "do"
  | define => "define"

def signature : Builtin → String
  | echo => "echo(value, ...)"
  | log => "log(value, ...)"
  | ifThenElse => "if(cond, then, else)"
  | eql => "eql(a, b)"
  | not => "not(cond)"
  | and => "and(cond, ...)"
  | gt => "gt(a, b)"
  | gte => "gte(a, b)"
  | ls => "ls(a, b)"
  | lse => "lse(a, b)"
  | add => "add(n, ...)"
  | letVar => "let(name, value)"
  | repeatTimes => "repeat(body, n)"
  | doAll => "do(expr, ...)"
  | define => "define(name, args(param, ...), body)"

/-- What a builtin says about a wrong number of arguments. Any number will do for `do`. -/
def arityMessage : Builtin → String
  | echo | log => "echo requires at least 1 argument"
  | ifThenElse => "if requires a condition, a then-expression and an else-expression"
  | eql => "eql requires exactly 2 arguments"
  | not => "not requires exactly 1 argument"
  | and => "and requires at least 1 argument"
  | gt => "gt requires exactly 2 arguments"
  | gte => "gte requires exactly 2 arguments"
  | ls => "ls requires exactly 2 arguments"
  | lse => "lse requires exactly 2 arguments"
  | add => "add requires at least 1 argument"
  | letVar => "let requires exactly 2 arguments: let(name, value)"
  | repeatTimes => "repeat requires exactly 2 arguments: repeat(body, n)"
  | doAll => "do takes any number of arguments"
  | define => "define requires exactly 3 arguments: define(name, args(...), body)"

def named? (name : String) : Option Builtin := all.find? fun b => b.name == name

end Builtin
end MacroScript
