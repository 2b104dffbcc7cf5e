import MacroScript.Text.Quoted

/-!
# Expressions

The tree that reading produces and evaluation consumes. Code and values share
it: a literal is its own value, a variable refers to a binding, and a call holds
its arguments unevaluated. Equality is structural and syntactic, so a variable
never equals the string of its name.
-/
namespace MacroScript

/-- A unit, an unsigned 64-bit integer, a text, a reference, or a call. -/
inductive Expr where
  | void
  | int (value : UInt64)
  | string (text : String)
  | var (name : String)
  | call (name : String) (args : List Expr)
  deriving Inhabited, Repr

namespace Expr

mutual

/-- Structural equality: the same variant with the same contents. -/
def eql : Expr → Expr → Bool
  | void, void => true
  | int a, int b => a == b
  | string a, string b => a == b
  | var a, var b => a == b
  | call f xs, call g ys => f == g && eqlAll xs ys
  | _, _ => false

def eqlAll : List Expr → List Expr → Bool
  | [], [] => true
  | x :: xs, y :: ys => eql x y && eqlAll xs ys
  | _, _ => false

end

mutual

theorem eql_self : (e : Expr) → eql e e = true
  | void => rfl
  | int _ | string _ | var _ => by simp [eql]
  | call _ xs => by simp [eql, eqlAll_self xs]

theorem eqlAll_self : (es : List Expr) → eqlAll es es = true
  | [] => rfl
  | e :: es => by simp [eqlAll, eql_self e, eqlAll_self es]

end

mutual

theorem eq_of_eql : {a b : Expr} → eql a b = true → a = b
  | void, b, h => by cases b <;> simp_all [eql]
  | int _, b, h => by cases b <;> simp_all [eql]
  | string _, b, h => by cases b <;> simp_all [eql]
  | var _, b, h => by cases b <;> simp_all [eql]
  | call f xs, b, h => by
      cases b with
      | call g ys =>
          simp only [eql, Bool.and_eq_true, beq_iff_eq] at h
          rw [h.1, eq_of_eqlAll h.2]
      | _ => simp [eql] at h

theorem eq_of_eqlAll : {as bs : List Expr} → eqlAll as bs = true → as = bs
  | [], bs, h => by cases bs <;> simp_all [eqlAll]
  | a :: as, bs, h => by
      cases bs with
      | nil => simp [eqlAll] at h
      | cons b bs =>
          simp only [eqlAll, Bool.and_eq_true] at h
          rw [eq_of_eql h.1, eq_of_eqlAll h.2]

end

theorem eql_iff (a b : Expr) : eql a b = true ↔ a = b :=
  ⟨eq_of_eql, fun h => h ▸ eql_self a⟩

instance : DecidableEq Expr := fun a b => decidable_of_iff _ (eql_iff a b)

def typeName : Expr → String
  | void => "VoidType"
  | int _ => "Int"
  | string _ => "String"
  | var _ => "Var"
  | call _ _ => "FnCall"

/-- Only the unit counts as empty. -/
def isTruthy : Expr → Bool
  | void => false
  | _ => true

def asInt? : Expr → Option UInt64
  | int value => some value
  | _ => none

def asString? : Expr → Option String
  | string text => some text
  | _ => none

def asVar? : Expr → Option String
  | var name => some name
  | _ => none

/-- Truth values are the strings `true` and `false`. -/
def ofBool (flag : Bool) : Expr := string (if flag then "true" else "false")

/-- The first number that is too large for an integer expression. -/
def intBound : Nat := 18446744073709551616

def ofInt? (n : Int) : Option Expr :=
  if 0 ≤ n ∧ n < intBound then some (int n.toNat.toUInt64) else none

mutual

def describe : Expr → String
  | void => "Void"
  | int value => s!"Int({value.toNat})"
  | string text => s!"String({Text.quoted text})"
  | var name => s!"Var({Text.quoted name})"
  | call name args => s!"FnCall({Text.quoted name}, [{describeAll args}])"

def describeAll : List Expr → String
  | [] => ""
  | [e] => e.describe
  | e :: es => s!"{e.describe}, {describeAll es}"

end

end Expr
end MacroScript
