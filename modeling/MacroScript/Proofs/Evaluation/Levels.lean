import MacroScript.Proofs.Evaluation.Discipline

/-!
# One level of an evaluation

An evaluation enters, does one step in terms of the nested evaluations, and
leaves. The stock of levels always suffices for that: what is left of it is the
stock of the session that was entered.
-/
namespace MacroScript

open MacroScript.Action Session

variable {s t : Session} {e : Expr} {name : String}

theorem Session.levels_entered (h : s.depth < s.maxDepth) :
    s.levels = { s with depth := s.depth + 1 : Session }.levels + 1 := by
  unfold Session.levels
  dsimp only
  omega

theorem evaluate_of_room (h : s.depth < s.maxDepth) :
    evaluate e s = (evaluateStep (evaluateWith { s with depth := s.depth + 1 : Session }.levels)
      e).ensuring leave { s with depth := s.depth + 1 } := by
  have henter := enter_of_room h
  unfold evaluate
  rw [levels_entered h, evaluateWith, bind_ok (eq_ok_iff.mp henter).1, (eq_ok_iff.mp henter).2]

theorem evaluateWith_of_no_room {levels : Nat} (h : s.maxDepth ≤ s.depth) :
    evaluateWith levels e s = .error (.eval (.recursionLimit s.maxDepth)) s := by
  have henter := enter_of_no_room h
  cases levels with
  | zero => rfl
  | succ levels =>
      rw [evaluateWith, bind_error (eq_error_iff.mp henter).1, (eq_error_iff.mp henter).2]

theorem evaluate_of_no_room (h : s.maxDepth ≤ s.depth) :
    evaluate e s = .error (.eval (.recursionLimit s.maxDepth)) s :=
  evaluateWith_of_no_room h

theorem evaluateStep_var {v : HostValue} (h : s.vars.find? name = some v) (ev : Evaluator) :
    evaluateStep ev (.var name) s = evaluateBound ev v s := by
  have hlookup := @lookupVar_eq s name
  rw [h] at hlookup
  rw [evaluateStep, bind_ok (eq_ok_iff.mp hlookup).1, (eq_ok_iff.mp hlookup).2]

theorem evaluateStep_unknownVariable (h : s.vars.find? name = none) (ev : Evaluator) :
    evaluateStep ev (.var name) s = .error (.eval (.unknownVariable name)) s := by
  have hlookup := @lookupVar_eq s name
  rw [h] at hlookup
  rw [evaluateStep, bind_error (eq_error_iff.mp hlookup).1, (eq_error_iff.mp hlookup).2]

theorem evaluateStep_call {fn : Function} (h : s.functions.find? name = some fn) (ev : Evaluator)
    (args : List Expr) : evaluateStep ev (.call name args) s = fn.call ev args s := by
  have hlookup := @lookupFunction_eq s name
  rw [h] at hlookup
  rw [evaluateStep, bind_ok (eq_ok_iff.mp hlookup).1, (eq_ok_iff.mp hlookup).2]

theorem evaluateStep_unknownFunction (h : s.functions.find? name = none) (ev : Evaluator)
    (args : List Expr) :
    evaluateStep ev (.call name args) s = .error (.eval (.unknownFunction name)) s := by
  have hlookup := @lookupFunction_eq s name
  rw [h] at hlookup
  rw [evaluateStep, bind_error (eq_error_iff.mp hlookup).1, (eq_error_iff.mp hlookup).2]

/-- An evaluation that ends in a value had room, and one step in that room gave the value. -/
theorem evaluate_ok {v : HostValue} (h : evaluate e s = .ok v t) :
    s.depth < s.maxDepth ∧ ∃ u,
      evaluateStep (evaluateWith { s with depth := s.depth + 1 : Session }.levels) e
        { s with depth := s.depth + 1 } = .ok v u ∧ t = { u with depth := u.depth - 1 } := by
  by_cases hroom : s.depth < s.maxDepth
  · rw [evaluate_of_room hroom] at h
    exact ⟨hroom, ensuring_leave_ok.mp h⟩
  · rw [evaluate_of_no_room (Int.not_lt.mp hroom)] at h
    cases h

theorem evaluate_literal (he : e.isLiteral = true) (h : s.depth < s.maxDepth) :
    evaluate e s = .ok (.expr e) s := by
  rw [evaluate_of_room h, ensuring_leave_ok]
  refine ⟨{ s with depth := s.depth + 1 }, ?_, ?_⟩
  · cases e <;> first | rfl | cases he
  · simp

theorem enter_leave {v : HostValue} (h : s.depth < s.maxDepth) :
    (do enter; leave; return v : Action Session HostValue) s = .ok v s := by
  have henter := enter_of_room h
  rw [bind_ok (eq_ok_iff.mp henter).1, (eq_ok_iff.mp henter).2, bind_ok result_leave, final_leave]
  simp [pure, EStateM.pure]

theorem evaluateValue_plain {v : HostValue} (hv : v.asExpr? = none) (h : s.depth < s.maxDepth) :
    evaluateValue v s = .ok v s := by
  cases v with
  | expr e => cases hv
  | _ => exact enter_leave h

theorem evaluate_var_literal (hx : s.vars.find? name = some (.expr e)) (he : e.isLiteral = true)
    (h : s.depth + 1 < s.maxDepth) : evaluate (.var name) s = .ok (.expr e) s := by
  rw [evaluate_of_room (by omega), ensuring_leave_ok]
  refine ⟨{ s with depth := s.depth + 1 }, ?_, ?_⟩
  · have hstep := evaluateStep_var (s := { s with depth := s.depth + 1 }) hx
    exact (hstep _).trans (evaluate_literal he h)
  · simp

end MacroScript
