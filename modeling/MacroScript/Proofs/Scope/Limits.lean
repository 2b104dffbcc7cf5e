import MacroScript.Proofs.Scope.Steps

/-!
# Scopes under other limits

A scope looks at its limit only to refuse a count. Under a larger limit an
operation therefore does the same, unless it was refused.
-/
namespace MacroScript

/-- The fault of a limit. -/
def Fault.IsResource (fault : Fault) : Prop :=
  fault.errorClass? = some .outOfMemory ∨ fault.errorClass? = some (.eval .recursionLimit)

namespace Scope

open MacroScript.Action

variable {α : Type} {scope : Scope} {limit : Option Int}

/-- One limit is at most another; no limit is the largest. -/
def LimitLE : Option Int → Option Int → Prop
  | _, none => True
  | some a, some b => a ≤ b
  | none, some _ => False

/-- The same scope under another limit. -/
def withLimit (scope : Scope) (limit : Option Int) : Scope := { scope with limit := limit }

@[simp] theorem used_withLimit : (scope.withLimit limit).used = scope.used := rfl

@[simp] theorem buffer_withLimit {id : BufferId} :
    (scope.withLimit limit).buffer id = scope.buffer id := rfl

theorem allows_withLimit {used : Int} (h : LimitLE scope.limit limit)
    (hallows : scope.allows used = true) : (scope.withLimit limit).allows used = true := by
  unfold allows withLimit at *
  cases limit with
  | none => rfl
  | some b =>
      cases ha : scope.limit with
      | none =>
          rw [ha] at h
          cases h
      | some a =>
          rw [ha] at h hallows
          exact decide_eq_true (Int.le_trans (of_decide_eq_true hallows) h)

theorem closeKept_withLimit (scope : Scope) (limit : Option Int) (object : Kept) :
    (scope.withLimit limit).closeKept object = (scope.closeKept object).withLimit limit := by
  cases object <;> rfl

theorem reset_withLimit (scope : Scope) (limit : Option Int) :
    (scope.withLimit limit).reset = scope.reset.withLimit limit := by
  have hfold : ∀ (kept : List Kept) (scope : Scope),
      kept.foldl closeKept (scope.withLimit limit) =
        (kept.foldl closeKept scope).withLimit limit := by
    intro kept
    induction kept with
    | nil => exact fun _ => rfl
    | cons object kept ih =>
        intro scope
        rw [List.foldl_cons, List.foldl_cons, closeKept_withLimit, ih]
  have hkept : (scope.withLimit limit).kept = scope.kept := rfl
  unfold reset
  rw [hkept, hfold]
  rfl

@[simp] theorem limit_reset (scope : Scope) : scope.reset.limit = scope.limit := by
  have h := congrArg Scope.limit (scope.reset_withLimit scope.limit)
  exact h

/-- The operation keeps the limit, and under a larger one it does the same unless it was the limit
that stopped it. -/
structure UpToLimit (action : Action Scope α) : Prop where
  limit : ∀ scope, (action.final scope).limit = scope.limit
  larger : ∀ scope limit, LimitLE scope.limit limit →
    (action.result (scope.withLimit limit) = action.result scope ∧
      action.final (scope.withLimit limit) = (action.final scope).withLimit limit) ∨
    ∃ fault : Fault, fault.IsResource ∧ action.result scope = .error fault

theorem upToLimit_keep (object : Kept) (amount : Int) : UpToLimit (keep object amount) where
  limit scope := by
    rw [final, keep_eq]
    split_ifs <;> rfl
  larger scope limit h := by
    unfold result final
    rw [keep_eq, keep_eq, used_withLimit]
    by_cases hroom : scope.allows (scope.used + amount) = true
    · rw [if_pos hroom, if_pos (allows_withLimit h hroom)]
      exact .inl ⟨rfl, rfl⟩
    · rw [if_neg hroom]
      exact .inr ⟨_, .inl rfl, rfl⟩

theorem upToLimit_newBuffer : UpToLimit newBuffer where
  limit scope := by
    rw [final, newBuffer_eq]
    split_ifs <;> rfl
  larger scope limit h := by
    unfold result final
    rw [newBuffer_eq, newBuffer_eq, used_withLimit]
    by_cases hroom : scope.allows scope.used = true
    · rw [if_pos hroom, if_pos (allows_withLimit h hroom)]
      exact .inl ⟨rfl, rfl⟩
    · rw [if_neg hroom]
      exact .inr ⟨_, .inl rfl, rfl⟩

theorem upToLimit_write (id : BufferId) (text : String) : UpToLimit (write id text) where
  limit scope := by
    rw [final, write_eq]
    split_ifs <;> rfl
  larger scope limit h := by
    unfold result final
    rw [write_eq, write_eq, used_withLimit, buffer_withLimit]
    by_cases hroom : scope.allows (scope.used + text.length) = true
    · rw [if_pos hroom, if_pos (allows_withLimit h hroom)]
      split_ifs
      · exact .inl ⟨rfl, rfl⟩
      · exact .inl ⟨rfl, rfl⟩
    · rw [if_neg hroom]
      exact .inr ⟨_, .inl rfl, rfl⟩

theorem upToLimit_contents (id : BufferId) : UpToLimit (contents id) where
  limit scope := by
    rw [final, contents_eq]
    split_ifs <;> rfl
  larger scope limit _ := by
    unfold result final
    rw [contents_eq, contents_eq, buffer_withLimit]
    split_ifs
    · exact .inl ⟨rfl, rfl⟩
    · exact .inl ⟨rfl, rfl⟩

end Scope

end MacroScript
