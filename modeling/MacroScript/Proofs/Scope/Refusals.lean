import MacroScript.Proofs.Scope.Usage

/-!
# What a refused request leaves

A scope refuses a request because it is exhausted, because a buffer is closed or
because it does not keep the buffer. Whatever state the scope is in, what it
keeps and the text, the size and the state of every buffer are the same behind
the refusal as before it, and so is the count, with one exception. A write counts
its text before it looks at the buffer, so a text that a closed buffer does not
take is counted all the same, although no buffer holds it.
-/
namespace MacroScript

namespace Scope

open MacroScript.Action

/-- What the owner of a scope can ask of it: any use, or the text of a buffer. -/
inductive Request where
  | use (use : Use)
  | contents (id : BufferId)

namespace Request

def action : Request → Action Scope Unit
  | use u => u.action
  | contents id => do
      let _ ← Scope.contents id

/-- Why the request is refused, if it is. -/
def refusal? (scope : Scope) : Request → Option Fault
  | use (.charge amount) | use (.keep _ amount) =>
      if scope.allows (scope.used + amount) then none
      else some (scope.exhausted (scope.used + amount))
  | use .newBuffer =>
      if scope.allows scope.used then none else some (scope.exhausted scope.used)
  | use (.write id text) =>
      if scope.allows (scope.used + text.length) then
        if (scope.buffer id).isClosed then some (.foreign .closedBuffer) else none
      else some (scope.exhausted (scope.used + text.length))
  | use (.release id) => if .buffer id ∈ scope.kept then none else some (.foreign .notKept)
  | use .looseBuffer | use (.close _) | use .reset => none
  | contents id => if (scope.buffer id).isClosed then some (.foreign .closedBuffer) else none

/-- The characters that are counted although the request is refused. -/
def stray (scope : Scope) : Request → Nat
  | use (.write id text) =>
      if scope.allows (scope.used + text.length) ∧ (scope.buffer id).isClosed then text.length
      else 0
  | _ => 0

end Request

variable {scope after : Scope} {request : Request} {fault : Fault}

/-- The scope with so many more characters counted. -/
def counting (scope : Scope) (characters : Nat) : Scope :=
  { scope with used := scope.used + characters }

@[simp] theorem counting_zero : scope.counting 0 = scope := by
  simp [counting]

/-- A request is refused for the reason that the state of the scope gives, or else it is granted. A
refusal counts what is stray. -/
theorem Request.action_eq (scope : Scope) (request : Request) : request.action scope =
    match request.refusal? scope with
    | some fault => .error fault (scope.counting (request.stray scope))
    | none => .ok () (request.action.final scope) := by
  cases request with
  | contents id =>
      simp only [action, refusal?, stray, counting_zero, final, bind, EStateM.bind, contents_eq]
      split_ifs <;> rfl
  | use u =>
      cases u with
      | charge amount =>
          simp only [action, Use.action, refusal?, stray, counting_zero, final, charge_eq]
          split_ifs <;> rfl
      | keep object amount =>
          simp only [action, Use.action, refusal?, stray, counting_zero, final, keep_eq]
          split_ifs <;> rfl
      | newBuffer =>
          simp only [action, Use.action, refusal?, stray, counting_zero, final, bind, EStateM.bind,
            newBuffer_eq]
          split_ifs <;> rfl
      | write id text =>
          simp only [action, Use.action, refusal?, stray, final, write_eq]
          by_cases hroom : scope.allows (scope.used + text.length) = true
          · simp only [hroom, true_and]
            split_ifs <;> rfl
          · simp only [if_neg hroom, if_neg fun h => hroom (And.left h), counting_zero]
      | release id =>
          simp only [action, Use.action, refusal?, stray, counting_zero, final, release_eq,
            List.contains_iff_mem]
          split_ifs <;> rfl
      | looseBuffer => rfl
      | close id => rfl
      | reset => rfl

theorem Request.stray_ne_zero_iff : request.stray scope ≠ 0 ↔
    ∃ id text, request = .use (.write id text) ∧ text ≠ "" ∧
      (scope.buffer id).isClosed = true ∧ scope.allows (scope.used + text.length) = true := by
  have hwrite : ∀ id text, stray scope (.use (.write id text)) =
      if scope.allows (scope.used + text.length) ∧ (scope.buffer id).isClosed then text.length
      else 0 := fun _ _ => rfl
  constructor
  · intro hstray
    match request with
    | .use (.write id text) =>
        rw [hwrite] at hstray
        split_ifs at hstray with hlost
        · refine ⟨id, text, rfl, ?_, hlost.2, hlost.1⟩
          rintro rfl
          exact hstray rfl
        · exact absurd rfl hstray
  · rintro ⟨id, text, rfl, htext, hclosed, hroom⟩
    rw [hwrite, if_pos ⟨hroom, hclosed⟩]
    simpa using htext

/-- A request that is refused leaves what the scope keeps, its limit and every buffer alone. It
leaves the count alone too, unless it was to write a text to a closed buffer and the limit had room
for that text, which is then counted. -/
theorem refused_leaves (h : request.action scope = .error fault after) :
    after = scope.counting (request.stray scope) ∧
      after.kept = scope.kept ∧ after.buffers = scope.buffers ∧
      (after.used ≠ scope.used ↔ ∃ id text, request = .use (.write id text) ∧ text ≠ "" ∧
        (scope.buffer id).isClosed = true ∧
        scope.allows (scope.used + text.length) = true) := by
  have hafter : after = scope.counting (request.stray scope) := by
    rw [Request.action_eq] at h
    cases hrefusal : request.refusal? scope with
    | none =>
        rw [hrefusal] at h
        cases h
    | some reason =>
        rw [hrefusal] at h
        cases h
        rfl
  subst hafter
  refine ⟨rfl, rfl, rfl, ?_⟩
  rw [← Request.stray_ne_zero_iff]
  simp [counting]

/-- A scope without a limit whose only buffer was closed before anything was written to it. -/
def closedAtOnce : Scope := ((Account.fresh "s" none).after [.newBuffer, .close 0]).scope

/-- A text that is written to a closed buffer stays counted. -/
theorem refused_leaves_closed :
    let after := (Request.use (.write 0 "x")).action.final closedAtOnce
    closedAtOnce.used = 0 ∧ after.used = 1 ∧
      (Request.use (.write 0 "x")).action closedAtOnce =
        .error (.foreign .closedBuffer) after ∧
      after.kept = closedAtOnce.kept ∧ after.buffers = closedAtOnce.buffers := by
  have h : (Request.use (.write 0 "x")).action closedAtOnce = .error (.foreign .closedBuffer)
      ((Request.use (.write 0 "x")).action.final closedAtOnce) := rfl
  obtain ⟨hafter, hkept, hbuffers, -⟩ := refused_leaves h
  refine ⟨rfl, ?_, h, hkept, hbuffers⟩
  rw [hafter]
  rfl

end Scope

end MacroScript
