import MacroScript.Proofs.Action.Ending
import MacroScript.Scope
import Mathlib.Tactic.SplitIfs

/-!
# The steps of a scope

How each operation of a scope ends, and in which state. An operation fails for
one of three reasons: the scope is exhausted, a buffer is closed, or a buffer is
not kept.
-/
namespace MacroScript

/-- The fault that a count past the limit gives. -/
def Scope.exhausted (scope : Scope) (used : Int) : Fault :=
  .scopeExhausted scope.name used (scope.limit.getD 0)

namespace Scope

open MacroScript.Action

variable {scope : Scope} {id : BufferId} {text : String} {amount : Int} {object : Kept}

theorem keep_eq : keep object amount scope =
    if scope.allows (scope.used + amount) then
      .ok () { scope with used := scope.used + amount, kept := scope.kept ++ [object] }
    else .error (scope.exhausted (scope.used + amount)) scope := by
  have h := charge_eq scope amount
  unfold keep
  split_ifs at h ⊢ with hallows
  · rw [bind_ok (eq_ok_iff.mp h).1, (eq_ok_iff.mp h).2]
    rfl
  · rw [bind_error (eq_error_iff.mp h).1, (eq_error_iff.mp h).2]
    rfl

theorem newBuffer_eq : newBuffer scope =
    if scope.allows scope.used then
      .ok scope.buffers.length { scope with
        kept := scope.kept ++ [.buffer scope.buffers.length]
        buffers := scope.buffers ++ [Buffer.empty] }
    else .error (scope.exhausted scope.used) scope := by
  have h := charge_eq scope 0
  rw [Int.add_zero] at h
  unfold newBuffer
  split_ifs at h ⊢ with hallows
  · rw [bind_ok (eq_ok_iff.mp h).1, (eq_ok_iff.mp h).2]
    have hk : keep (.buffer scope.buffers.length) 0
        { scope with buffers := scope.buffers ++ [Buffer.empty] } = .ok () { scope with
          kept := scope.kept ++ [.buffer scope.buffers.length]
          buffers := scope.buffers ++ [Buffer.empty] } := by
      rw [keep_eq, Int.add_zero]
      exact if_pos hallows
    change (keep (.buffer scope.buffers.length) 0 >>= fun _ => pure scope.buffers.length)
      { scope with buffers := scope.buffers ++ [Buffer.empty] } = _
    rw [bind_ok (eq_ok_iff.mp hk).1, (eq_ok_iff.mp hk).2]
    rfl
  · rw [bind_error (eq_error_iff.mp h).1, (eq_error_iff.mp h).2]
    rfl

theorem write_eq : write id text scope =
    if scope.allows (scope.used + text.length) then
      if (scope.buffer id).isClosed then
        .error (.foreign .closedBuffer) { scope with used := scope.used + text.length }
      else .ok () ({ scope with used := scope.used + text.length }.update id (·.append text))
    else .error (scope.exhausted (scope.used + text.length)) scope := by
  have h := charge_eq scope text.length
  unfold write
  split_ifs at h ⊢ with hallows hclosed
  · rw [bind_ok (eq_ok_iff.mp h).1, (eq_ok_iff.mp h).2, get_bind]
    change (if (scope.buffer id).isClosed then _ else _ : Action Scope Unit) _ = _
    rw [if_pos hclosed]
    rfl
  · rw [bind_ok (eq_ok_iff.mp h).1, (eq_ok_iff.mp h).2, get_bind]
    change (if (scope.buffer id).isClosed then _ else _ : Action Scope Unit) _ = _
    rw [if_neg hclosed]
    rfl
  · rw [bind_error (eq_error_iff.mp h).1, (eq_error_iff.mp h).2]
    rfl

theorem contents_eq : contents id scope =
    if (scope.buffer id).isClosed then .error (.foreign .closedBuffer) scope
    else .ok (scope.buffer id).text scope := by
  unfold contents
  rw [get_bind]
  split_ifs <;> rfl

theorem release_eq : release id scope =
    if scope.kept.contains (.buffer id) then
      .ok () ({ scope with
        kept := scope.kept.erase (.buffer id)
        used := scope.used - (scope.buffer id).size }.update id Buffer.close)
    else .error (.foreign .notKept) scope := by
  unfold release
  rw [get_bind]
  split_ifs <;> rfl

end Scope

end MacroScript
