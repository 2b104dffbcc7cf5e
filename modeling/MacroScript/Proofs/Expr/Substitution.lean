import MacroScript.Proofs.Evaluation.Discipline
import MacroScript.Proofs.Expr.Subtrees
import MacroScript.Proofs.Table

/-!
# Substitution of variables

All variables of a list are replaced at once, wherever they stand in a tree. The
name of a call is no variable, and there is nothing that binds a variable in a
tree, so nothing can be captured.
-/
namespace MacroScript

namespace Expr

mutual

/-- The tree with variables replaced by trees, all at once. -/
def subst (pairs : List (String × Expr)) : Expr → Expr
  | void => void
  | int value => int value
  | string text => string text
  | var name => (pairs.lookup name).getD (var name)
  | call name args => call name (substIn pairs args)

def substIn (pairs : List (String × Expr)) : List Expr → List Expr
  | [] => []
  | e :: es => e.subst pairs :: substIn pairs es

end

/-- None of the variables stands in the tree. -/
def Avoids (names : List String) (e : Expr) : Prop :=
  e.Every fun sub => ∀ name ∈ names, sub ≠ var name

variable {pairs : List (String × Expr)} {names : List String} {name : String} {args : List Expr}
  {p : Expr → Prop} {e : Expr}

theorem everyIn_iff : EveryIn p args ↔ ∀ e ∈ args, e.Every p := by
  induction args with
  | nil => simp [EveryIn]
  | cons e args ih => rw [EveryIn, ih, List.forall_mem_cons]

theorem every_call_iff : (call name args).Every p ↔ p (call name args) ∧ ∀ e ∈ args, e.Every p := by
  rw [Every, everyIn_iff]

theorem avoids_var_iff : (var name).Avoids names ↔ name ∉ names := by
  unfold Avoids Every
  constructor
  · exact fun h hmem => h name hmem rfl
  · rintro h other hother ⟨⟩
    exact h hother

theorem avoids_call_iff : (call name args).Avoids names ↔ ∀ e ∈ args, e.Avoids names := by
  unfold Avoids
  rw [every_call_iff]
  exact ⟨And.right, fun h => ⟨fun _ _ => nofun, h⟩⟩

theorem avoids_of_isLiteral (h : e.isLiteral = true) : e.Avoids names := by
  cases e with
  | void | int _ | string _ => exact fun _ _ => nofun
  | _ => cases h

theorem substIn_eq_map : substIn pairs args = args.map (subst pairs) := by
  induction args with
  | nil => rfl
  | cons e args ih => rw [substIn, List.map_cons, ih]

mutual

theorem subst_eq_self : {e : Expr} → e.Avoids (pairs.map Prod.fst) → e.subst pairs = e
  | void, _ | int _, _ | string _, _ => rfl
  | var name, h => by
      have hnone := (Table.lookup_eq_none_iff pairs).mpr (avoids_var_iff.mp h)
      rw [subst, hnone, Option.getD_none]
  | call name args, h => by rw [subst, substIn_eq_self h.2]

theorem substIn_eq_self : {es : List Expr} →
    EveryIn (fun sub => ∀ name ∈ pairs.map Prod.fst, sub ≠ var name) es → substIn pairs es = es
  | [], _ => rfl
  | e :: es, h => by rw [substIn, subst_eq_self h.1, substIn_eq_self h.2]

end

end Expr

/-- What a variable is bound to with variables replaced; a plain value has none. -/
def HostValue.subst (pairs : List (String × Expr)) : HostValue → HostValue
  | .expr e => .expr (e.subst pairs)
  | value => value

end MacroScript
