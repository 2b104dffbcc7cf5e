import MacroScript.Action

/-!
# How actions end

An action ends in a value or a fault and leaves a state in either case. The two
parts are followed through the combinators here, so that a statement about an
action can speak of its end and of the state it leaves without a case split.
-/
namespace MacroScript

namespace Action

variable {σ τ α β : Type}

/-- The value or the fault in which an action ends. -/
def result (action : Action σ α) (s : σ) : Except Fault α :=
  match action s with
  | .ok a _ => .ok a
  | .error fault _ => .error fault

/-- The state that an action leaves, on a value and on a fault. -/
def final (action : Action σ α) (s : σ) : σ :=
  match action s with
  | .ok _ t => t
  | .error _ t => t

/-- The action ends in this way and leaves the state as it is. -/
def Yields (action : Action σ α) (s : σ) (e : Except Fault α) : Prop :=
  action.result s = e ∧ action.final s = s

variable {action other : Action σ α} {next : α → Action σ β} {cleanup : Action σ Unit}
  {s t : σ} {a : α} {fault : Fault}

theorem eq_ok_iff : action s = .ok a t ↔ action.result s = .ok a ∧ action.final s = t := by
  unfold result final
  cases action s <;> simp

theorem eq_error_iff :
    action s = .error fault t ↔ action.result s = .error fault ∧ action.final s = t := by
  unfold result final
  cases action s <;> simp

theorem yields_ok_iff : action.Yields s (.ok a) ↔ action s = .ok a s := eq_ok_iff.symm

theorem yields_error_iff : action.Yields s (.error fault) ↔ action s = .error fault s :=
  eq_error_iff.symm

theorem apply_eq (h : action.result s = other.result t) (hf : action.final s = other.final t) :
    action s = other t := by
  unfold result at h
  unfold final at hf
  cases ha : action s <;> cases ho : other t <;> simp_all

theorem bind_ok (h : action.result s = .ok a) :
    (action >>= next) s = next a (action.final s) := by
  have hs := eq_ok_iff.mpr ⟨h, rfl⟩
  simp only [bind, EStateM.bind, hs]

theorem bind_error (h : action.result s = .error fault) :
    (action >>= next) s = .error fault (action.final s) := by
  have hs := eq_error_iff.mpr ⟨h, rfl⟩
  simp only [bind, EStateM.bind, hs]

theorem bind_of_ok (h : action s = .ok a t) : (action >>= next) s = next a t := by
  simp only [bind, EStateM.bind, h]

theorem bind_of_error (h : action s = .error fault t) :
    (action >>= next) s = .error fault t := by
  simp only [bind, EStateM.bind, h]

theorem result_bind_ok (h : action.result s = .ok a) :
    result (action >>= next) s = (next a).result (action.final s) := by
  simp only [result, bind_ok h]

theorem final_bind_ok (h : action.result s = .ok a) :
    final (action >>= next) s = (next a).final (action.final s) := by
  simp only [final, bind_ok h]

theorem result_bind_error (h : action.result s = .error fault) :
    result (action >>= next) s = .error fault := by
  simp only [result, bind_error h]

theorem final_bind_error (h : action.result s = .error fault) :
    final (action >>= next) s = action.final s := by
  rw [final, bind_error h]

/-- What leaves every state alone can be left out. -/
theorem final_bind_of_final (h : ∀ a t, (next a).final t = t) :
    final (action >>= next) s = action.final s := by
  cases hr : action.result s with
  | ok a => rw [final_bind_ok hr, h]
  | error fault => rw [final_bind_error hr]

theorem bind_eq_ok_iff {b : β} {u : σ} :
    (action >>= next) s = .ok b u ↔ ∃ a t, action s = .ok a t ∧ next a t = .ok b u := by
  simp only [bind, EStateM.bind]
  cases action s <;> simp [and_assoc]

theorem get_bind {use : σ → Action σ β} : ((get : Action σ σ) >>= use) s = use s s := rfl

@[simp] theorem result_pure : result (pure a : Action σ α) s = .ok a := rfl

@[simp] theorem final_pure : final (pure a : Action σ α) s = s := rfl

@[simp] theorem result_throw : result (throw fault : Action σ α) s = .error fault := rfl

@[simp] theorem final_throw : final (throw fault : Action σ α) s = s := rfl

@[simp] theorem result_ofExcept {e : Except Fault α} :
    result (ofExcept e : Action σ α) s = e := by
  cases e <;> rfl

@[simp] theorem final_ofExcept {e : Except Fault α} : final (ofExcept e : Action σ α) s = s := by
  cases e <;> rfl

@[simp] theorem result_attempt : action.attempt.result s = .ok (action.result s) := by
  unfold result attempt
  cases action s <;> rfl

@[simp] theorem final_attempt : action.attempt.final s = action.final s := by
  unfold final attempt
  cases action s <;> rfl

@[simp] theorem final_ensuring :
    (action.ensuring cleanup).final s = cleanup.final (action.final s) := by
  unfold final ensuring
  cases action s with
  | ok a u => cases h : cleanup u <;> simp [h]
  | error fault u => cases h : cleanup u <;> simp [h]

theorem result_ensuring_ok (h : cleanup.result (action.final s) = .ok ()) :
    (action.ensuring cleanup).result s = action.result s := by
  cases ha : action s with
  | ok a t =>
      obtain ⟨hr, rfl⟩ := eq_ok_iff.mp ha
      simp only [result, ensuring, ha, eq_ok_iff.mpr ⟨h, rfl⟩]
  | error fault t =>
      obtain ⟨hr, rfl⟩ := eq_error_iff.mp ha
      simp only [result, ensuring, ha, eq_ok_iff.mpr ⟨h, rfl⟩]

/-- A cleanup that fails has the last word. -/
theorem result_ensuring_error (h : cleanup.result (action.final s) = .error fault) :
    (action.ensuring cleanup).result s = .error fault := by
  cases ha : action s with
  | ok a t =>
      obtain ⟨hr, rfl⟩ := eq_ok_iff.mp ha
      simp only [result, ensuring, ha, eq_error_iff.mpr ⟨h, rfl⟩]
  | error first t =>
      obtain ⟨hr, rfl⟩ := eq_error_iff.mp ha
      simp only [result, ensuring, ha, eq_error_iff.mpr ⟨h, rfl⟩]

@[simp] theorem result_within {part : τ → σ} {replace : τ → σ → τ} {u : τ} :
    (action.within part replace).result u = action.result (part u) := by
  unfold result within
  cases action (part u) <;> rfl

@[simp] theorem final_within {part : τ → σ} {replace : τ → σ → τ} {u : τ} :
    (action.within part replace).final u = replace u (action.final (part u)) := by
  unfold final within
  cases action (part u) <;> rfl

end Action

end MacroScript
