import MacroScript.Proofs.Scope.Limits
import MacroScript.Proofs.Session.Steps

/-!
# The limits of a session

The depth of evaluations and the two scopes are limited. A session under other
limits is the same in everything else.
-/
namespace MacroScript

/-- The limits of a session; a scope may have none. -/
structure Limits where
  maxDepth : Int
  scratch : Option Int
  arena : Option Int

/-- Every limit is at most the other one. -/
structure Limits.LE (a b : Limits) : Prop where
  maxDepth : a.maxDepth ≤ b.maxDepth
  scratch : Scope.LimitLE a.scratch b.scratch
  arena : Scope.LimitLE a.arena b.arena

namespace Session

def limits (s : Session) : Limits := ⟨s.maxDepth, s.scratch.limit, s.arena.limit⟩

def withLimits (s : Session) (limits : Limits) : Session :=
  { s with
    maxDepth := limits.maxDepth
    scratch := s.scratch.withLimit limits.scratch
    arena := s.arena.withLimit limits.arena }

@[simp] theorem withLimits_self (s : Session) : s.withLimits s.limits = s := rfl

theorem limits_bindVar {s : Session} {name : String} {value : HostValue} :
    ((bindVar name value).final s).limits = s.limits := by
  rw [Action.final, bindVar_eq]
  split_ifs <;> rfl

theorem limits_unbindVar {s : Session} {name : String} :
    ((unbindVar name).final s).limits = s.limits := by
  rw [Action.final, unbindVar_eq]
  split_ifs <;> rfl

end Session

end MacroScript
