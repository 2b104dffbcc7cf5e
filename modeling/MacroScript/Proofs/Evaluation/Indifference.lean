import MacroScript.Proofs.Evaluation.Discipline
import MacroScript.Proofs.Scope.Steps

/-!
# Disciplines that do not look at everything

Most disciplines have nothing to say about the scratch scope, and some have
nothing to say about the depth. The steps that only change such a part keep the
discipline for that reason alone; what is left to be said is which faults the
operations of a scope end in.
-/
namespace MacroScript

/-- The faults of scopes are among the ends that the rules allow. -/
structure HostRules.AllowsScopeFaults (rules : HostRules) : Prop where
  exhausted : ∀ scope needed limit, rules.fault (.scopeExhausted scope needed limit)
  closedBuffer : rules.fault (.foreign .closedBuffer)
  notKept : rules.fault (.foreign .notKept)

namespace HostRules

open MacroScript.Action

theorem answers_keep {rules : HostRules}
    (h : ∀ scope needed limit, rules.fault (.scopeExhausted scope needed limit))
    (object : Kept) (amount : Int) (scope : Scope) :
    rules.Answers (fun _ => True) ((Scope.keep object amount).result scope) := by
  unfold result
  rw [Scope.keep_eq]
  split_ifs
  · trivial
  · exact h ..

namespace AllowsScopeFaults

variable {rules : HostRules} (h : rules.AllowsScopeFaults) (scope : Scope)
include h

theorem answers_newBuffer : rules.Answers (fun _ => True) (Scope.newBuffer.result scope) := by
  unfold result
  rw [Scope.newBuffer_eq]
  split_ifs
  · trivial
  · exact h.exhausted ..

theorem answers_write (id : BufferId) (text : String) :
    rules.Answers (fun _ => True) ((Scope.write id text).result scope) := by
  unfold result
  rw [Scope.write_eq]
  split_ifs
  · exact h.closedBuffer
  · trivial
  · exact h.exhausted ..

theorem answers_contents (id : BufferId) :
    rules.Answers (fun _ => True) ((Scope.contents id).result scope) := by
  unfold result
  rw [Scope.contents_eq]
  split_ifs
  · exact h.closedBuffer
  · trivial

theorem answers_release (id : BufferId) :
    rules.Answers (fun _ => True) ((Scope.release id).result scope) := by
  unfold result
  rw [Scope.release_eq]
  split_ifs
  · trivial
  · exact h.notKept

theorem answers_releaseForget (id : BufferId) :
    rules.Answers (fun _ => True)
      (((Scope.release id).ensuring (Scope.forget id)).result scope) := by
  rw [result_ensuring_ok rfl]
  exact h.answers_release scope id

end AllowsScopeFaults

end HostRules

namespace Discipline

open MacroScript.Action Session

variable {α : Type} {D : Discipline} {rules : HostRules} {kind : α → Prop}

structure IgnoresScratch (D : Discipline) : Prop where
  holds : ∀ s scratch, D.holds s → D.holds { s with scratch := scratch }
  allows : ∀ s scratch, D.allows s { s with scratch := scratch }

structure IgnoresArena (D : Discipline) : Prop where
  holds : ∀ s arena, D.holds s → D.holds { s with arena := arena }
  allows : ∀ s arena, D.allows s { s with arena := arena }

structure IgnoresDepth (D : Discipline) : Prop where
  holds : ∀ s depth, D.holds s → D.holds { s with depth := depth }
  allows : ∀ s depth, D.allows s { s with depth := depth }

namespace IgnoresScratch

variable (h : D.IgnoresScratch)
include h

theorem onScratch {action : Action Scope α} {ends : Except Fault α → Prop}
    (hends : ∀ scope, ends (action.result scope)) : D.Ends ends (onScratch action) := by
  intro s hs
  rw [final_onScratch, result_onScratch]
  exact ⟨h.holds s _ hs, h.allows s _, hends s.scratch⟩

theorem withBuffer {action : BufferId → Action Session α} (hf : rules.AllowsScopeFaults)
    (haction : ∀ id, D.Keeps rules kind (action id)) :
    D.Keeps rules kind (Builtin.withBuffer action) := by
  have hnew : D.Keeps rules (fun _ => True) (Session.onScratch Scope.newBuffer) :=
    h.onScratch hf.answers_newBuffer
  refine hnew.bind fun id _ => (haction id).ensuring ?_
  exact h.onScratch fun scope => hf.answers_releaseForget scope id

theorem resetScratch : D.Permits resetScratch :=
  .of_final fun s hs => ⟨h.holds s _ hs, h.allows s _⟩

theorem atTop {action : Action Session α} (haction : D.Keeps rules kind action) :
    D.Keeps rules kind (atTop action) :=
  haction.atTop fun s hs _ => ⟨h.holds s _ hs, h.allows s _⟩

end IgnoresScratch

theorem IgnoresArena.keep (h : D.IgnoresArena)
    (hexhausted : ∀ scope needed limit, rules.fault (.scopeExhausted scope needed limit))
    (object : Kept) (amount : Int) :
    D.Keeps rules (fun _ => True) (onArena (Scope.keep object amount)) := by
  intro s hs
  rw [final_onArena, result_onArena]
  exact ⟨h.holds s _ hs, h.allows s _, HostRules.answers_keep hexhausted object amount s.arena⟩

theorem IgnoresDepth.nested (h : D.IgnoresDepth)
    (hlimit : ∀ limit, rules.fault (.eval (.recursionLimit limit)))
    {action : Action Session α} (haction : D.Keeps rules kind action) :
    D.Keeps rules kind (do enter; action.ensuring leave) := by
  have henter : D.Keeps rules (fun _ => True) enter := by
    intro s hs
    unfold final result
    rw [enter_eq]
    split_ifs
    · exact ⟨hs, D.refl s, hlimit s.maxDepth⟩
    · exact ⟨h.holds s _ hs, h.allows s _, trivial⟩
  have hleave : D.Permits leave := .of_final fun s hs => ⟨h.holds s _ hs, h.allows s _⟩
  exact henter.bind fun _ _ => haction.ensuring (hleave.andEnds fun _ => trivial)

end Discipline

end MacroScript
