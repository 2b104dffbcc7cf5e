import MacroScript.Proofs.Action.Ending
import MacroScript.Session
import Mathlib.Tactic.SplitIfs

/-!
# The steps of a session

How each operation of a session ends, and in which state.
-/
namespace MacroScript

namespace Session

open MacroScript.Action

variable {s : Session} {name : String} {value : HostValue}

@[simp] theorem result_leave : leave.result s = .ok () := rfl

@[simp] theorem final_leave : leave.final s = { s with depth := s.depth - 1 } := rfl

@[simp] theorem final_resetScratch :
    resetScratch.final s = { s with scratch := s.scratch.reset } := rfl

@[simp] theorem final_close : close.final s = s.closed := rfl

theorem enter_eq : enter s =
    if s.maxDepth ≤ s.depth then .error (.eval (.recursionLimit s.maxDepth)) s
    else .ok () { s with depth := s.depth + 1 } := by
  unfold enter
  rw [get_bind]
  split_ifs <;> rfl

theorem enter_of_room (h : s.depth < s.maxDepth) :
    enter s = .ok () { s with depth := s.depth + 1 } := by
  rw [enter_eq, if_neg (Int.not_le.mpr h)]

theorem enter_of_no_room (h : s.maxDepth ≤ s.depth) :
    enter s = .error (.eval (.recursionLimit s.maxDepth)) s := by
  rw [enter_eq, if_pos h]

theorem ensuring_leave_ok {α : Type} {action : Action Session α} {a : α} {t : Session} :
    action.ensuring leave s = .ok a t ↔
      ∃ u, action s = .ok a u ∧ t = { u with depth := u.depth - 1 } := by
  rw [eq_ok_iff, result_ensuring_ok result_leave, final_ensuring, final_leave]
  constructor
  · rintro ⟨hr, hf⟩
    exact ⟨_, eq_ok_iff.mpr ⟨hr, rfl⟩, hf.symm⟩
  · rintro ⟨u, hu, rfl⟩
    obtain ⟨hr, rfl⟩ := eq_ok_iff.mp hu
    exact ⟨hr, rfl⟩

theorem ensuring_leave_error {α : Type} {action : Action Session α} {fault : Fault} {t : Session} :
    action.ensuring leave s = .error fault t ↔
      ∃ u, action s = .error fault u ∧ t = { u with depth := u.depth - 1 } := by
  rw [eq_error_iff, result_ensuring_ok result_leave, final_ensuring, final_leave]
  constructor
  · rintro ⟨hr, hf⟩
    exact ⟨_, eq_error_iff.mpr ⟨hr, rfl⟩, hf.symm⟩
  · rintro ⟨u, hu, rfl⟩
    obtain ⟨hr, rfl⟩ := eq_error_iff.mp hu
    exact ⟨hr, rfl⟩

@[simp] theorem result_onScratch {α : Type} {action : Action Scope α} :
    (onScratch action).result s = action.result s.scratch := result_within

@[simp] theorem final_onScratch {α : Type} {action : Action Scope α} :
    (onScratch action).final s = { s with scratch := action.final s.scratch } := final_within

@[simp] theorem result_onArena {α : Type} {action : Action Scope α} :
    (onArena action).result s = action.result s.arena := result_within

@[simp] theorem final_onArena {α : Type} {action : Action Scope α} :
    (onArena action).final s = { s with arena := action.final s.arena } := final_within

theorem onScratch_ok {α : Type} {action : Action Scope α} {a : α} {scratch : Scope}
    (h : action s.scratch = .ok a scratch) :
    onScratch action s = .ok a { s with scratch := scratch } := by
  obtain ⟨hr, hf⟩ := eq_ok_iff.mp h
  rw [eq_ok_iff, result_onScratch, final_onScratch, hr, hf]
  exact ⟨rfl, rfl⟩

theorem onScratch_error {α : Type} {action : Action Scope α} {fault : Fault} {scratch : Scope}
    (h : action s.scratch = .error fault scratch) :
    onScratch action s = .error fault { s with scratch := scratch } := by
  obtain ⟨hr, hf⟩ := eq_error_iff.mp h
  rw [eq_error_iff, result_onScratch, final_onScratch, hr, hf]
  exact ⟨rfl, rfl⟩

theorem onArena_ok {α : Type} {action : Action Scope α} {a : α} {arena : Scope}
    (h : action s.arena = .ok a arena) : onArena action s = .ok a { s with arena := arena } := by
  obtain ⟨hr, hf⟩ := eq_ok_iff.mp h
  rw [eq_ok_iff, result_onArena, final_onArena, hr, hf]
  exact ⟨rfl, rfl⟩

theorem onArena_error {α : Type} {action : Action Scope α} {fault : Fault} {arena : Scope}
    (h : action s.arena = .error fault arena) :
    onArena action s = .error fault { s with arena := arena } := by
  obtain ⟨hr, hf⟩ := eq_error_iff.mp h
  rw [eq_error_iff, result_onArena, final_onArena, hr, hf]
  exact ⟨rfl, rfl⟩

theorem lookupVar_eq : lookupVar name s =
    match s.vars.find? name with
    | some value => .ok value s
    | none => .error (.eval (.unknownVariable name)) s := by
  unfold lookupVar
  rw [get_bind]
  cases s.vars.find? name <;> rfl

theorem lookupFunction_eq : lookupFunction name s =
    match s.functions.find? name with
    | some fn => .ok fn s
    | none => .error (.eval (.unknownFunction name)) s := by
  unfold lookupFunction
  rw [get_bind]
  cases s.functions.find? name <;> rfl

@[simp] theorem final_lookupVar : (lookupVar name).final s = s := by
  unfold final
  rw [lookupVar_eq]
  cases s.vars.find? name <;> rfl

@[simp] theorem final_lookupFunction : (lookupFunction name).final s = s := by
  unfold final
  rw [lookupFunction_eq]
  cases s.functions.find? name <;> rfl

theorem bindVar_eq : bindVar name value s =
    if s.vars.contains name then .error (.eval (.shadowing name)) s
    else .ok () { s with vars := s.vars.insert name value } := by
  unfold bindVar
  rw [get_bind]
  split_ifs <;> rfl

theorem unbindVar_eq : unbindVar name s =
    if s.vars.contains name then .ok () { s with vars := s.vars.erase name }
    else .error (.foreign (.bindingVanished name)) s := by
  unfold unbindVar
  rw [get_bind]
  split_ifs <;> rfl

theorem result_bindVar : (bindVar name value).result s = .ok () ∨
    (bindVar name value).result s = .error (.eval (.shadowing name)) := by
  unfold result
  rw [bindVar_eq]
  split_ifs
  · exact .inr rfl
  · exact .inl rfl

theorem result_unbindVar : (unbindVar name).result s = .ok () ∨
    (unbindVar name).result s = .error (.foreign (.bindingVanished name)) := by
  unfold result
  rw [unbindVar_eq]
  split_ifs
  · exact .inl rfl
  · exact .inr rfl

end Session

end MacroScript
