import MacroScript.Proofs.Action.Ending

/-!
# Rows of actions

Actions that are carried out one after another, up to the first that fails. How
far a row gets is the number of its actions that end in a value before that.
-/
namespace MacroScript

namespace Action

variable {σ α : Type}

/-- Carry out actions in turn, for what they do to the state. -/
def inTurn : List (Action σ α) → Action σ Unit
  | [] => pure ()
  | action :: actions => do
      let _ ← action
      inTurn actions

/-- How many actions end in a value before one fails. -/
def completed : List (Action σ α) → σ → Nat
  | [], _ => 0
  | action :: actions, s =>
      match action.result s with
      | .ok _ => completed actions (action.final s) + 1
      | .error _ => 0

variable {action : Action σ α} {actions others : List (Action σ α)} {s : σ} {a : α}
  {fault : Fault}

theorem completed_cons_ok (h : action.result s = .ok a) :
    completed (action :: actions) s = completed actions (action.final s) + 1 := by
  rw [completed, h]

theorem completed_cons_error (h : action.result s = .error fault) :
    completed (action :: actions) s = 0 := by
  rw [completed, h]

theorem completed_of_ok (h : (inTurn actions).result s = .ok ()) :
    completed actions s = actions.length := by
  induction actions generalizing s with
  | nil => rfl
  | cons action actions ih =>
      rw [inTurn] at h
      cases hr : action.result s with
      | ok a =>
          rw [result_bind_ok hr] at h
          rw [completed_cons_ok hr, ih h, List.length_cons]
      | error fault =>
          rw [result_bind_error hr] at h
          cases h

theorem inTurn_append_of_ok (h : (inTurn actions).result s = .ok ()) :
    inTurn (actions ++ others) s = inTurn others ((inTurn actions).final s) ∧
      completed (actions ++ others) s =
        completed actions s + completed others ((inTurn actions).final s) := by
  induction actions generalizing s with
  | nil => exact ⟨rfl, (Nat.zero_add _).symm⟩
  | cons action actions ih =>
      rw [inTurn] at h
      cases hr : action.result s with
      | ok a =>
          rw [result_bind_ok hr] at h
          rw [List.cons_append, inTurn, inTurn, bind_ok hr, final_bind_ok hr, completed_cons_ok hr,
            completed_cons_ok hr, (ih h).1, (ih h).2, Nat.add_right_comm]
          exact ⟨rfl, rfl⟩
      | error fault =>
          rw [result_bind_error hr] at h
          cases h

/-- Behind a failure nothing is carried out. -/
theorem inTurn_append_of_error (h : (inTurn actions).result s = .error fault) :
    inTurn (actions ++ others) s = inTurn actions s ∧
      completed (actions ++ others) s = completed actions s := by
  induction actions generalizing s with
  | nil => cases h
  | cons action actions ih =>
      rw [inTurn] at h
      rw [List.cons_append, inTurn, inTurn]
      cases hr : action.result s with
      | ok a =>
          rw [result_bind_ok hr] at h
          rw [bind_ok hr, bind_ok hr, completed_cons_ok hr, completed_cons_ok hr, (ih h).1,
            (ih h).2]
          exact ⟨rfl, rfl⟩
      | error fault =>
          rw [bind_error hr, bind_error hr, completed_cons_error hr, completed_cons_error hr]
          exact ⟨rfl, rfl⟩

end Action

end MacroScript
