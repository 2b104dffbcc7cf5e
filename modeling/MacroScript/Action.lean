import MacroScript.Fault

/-!
# Actions on a state

An action changes a state and ends in a value or a fault; the changes made
before a fault stay. Two combinators carry the discipline of cleaning up: an
action can be followed by a cleanup whatever its end, and its end can be looked
at as a value. If a cleanup itself fails, its fault is the one that is seen.
-/
namespace MacroScript

/-- A state transformer that may end in a fault. -/
abbrev Action (σ α : Type) := EStateM Fault σ α

namespace Action

variable {σ τ α : Type}

/-- Run a cleanup after an action, on a value and on a fault. -/
def ensuring (action : Action σ α) (cleanup : Action σ Unit) : Action σ α := fun s =>
  match action s with
  | .ok a s =>
      match cleanup s with
      | .ok _ s => .ok a s
      | .error fault s => .error fault s
  | .error fault s =>
      match cleanup s with
      | .ok _ s => .error fault s
      | .error later s => .error later s

/-- The end of an action as a value. -/
def attempt (action : Action σ α) : Action σ (Except Fault α) := fun s =>
  match action s with
  | .ok a s => .ok (.ok a) s
  | .error fault s => .ok (.error fault) s

def within (part : τ → σ) (replace : τ → σ → τ) (action : Action σ α) : Action τ α := fun t =>
  match action (part t) with
  | .ok a s => .ok a (replace t s)
  | .error fault s => .error fault (replace t s)

/-- An action that leaves the state alone. -/
def ofExcept : Except Fault α → Action σ α
  | .ok a => pure a
  | .error fault => throw fault

@[simp] theorem attempt_ok {action : Action σ α} {s t : σ} {a : α}
    (h : action s = .ok a t) : action.attempt s = .ok (.ok a) t := by
  simp [attempt, h]

@[simp] theorem attempt_error {action : Action σ α} {s t : σ} {fault : Fault}
    (h : action s = .error fault t) : action.attempt s = .ok (.error fault) t := by
  simp [attempt, h]

theorem ensuring_ok {action : Action σ α} {cleanup : Action σ Unit} {s t u : σ} {a : α}
    (h : action s = .ok a t) (hc : cleanup t = .ok () u) :
    action.ensuring cleanup s = .ok a u := by
  simp [ensuring, h, hc]

theorem ensuring_error {action : Action σ α} {cleanup : Action σ Unit} {s t u : σ}
    {fault : Fault} (h : action s = .error fault t) (hc : cleanup t = .ok () u) :
    action.ensuring cleanup s = .error fault u := by
  simp [ensuring, h, hc]

end Action
end MacroScript
