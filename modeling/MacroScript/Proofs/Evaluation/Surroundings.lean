import MacroScript.Proofs.Evaluation.Definitions
import MacroScript.Proofs.Evaluation.LargerLimits
import MacroScript.Proofs.Scope.Stacked

/-!
# Evaluations in other surroundings

An evaluation takes place at some depth below a limit, and finds a scratch scope.
Without functions of the host it leaves all of this as it was, and its program
does not look at it. Two runs of a program in different surroundings therefore do
the same, as long as both may enter whenever one may, and as long as the buffers
that are made in both are used alike.
-/
namespace MacroScript

/-- What surrounds an evaluation. -/
structure Surroundings where
  maxDepth : Int
  depth : Int
  scratch : Scope

namespace Session

def surroundings (s : Session) : Surroundings := ⟨s.maxDepth, s.depth, s.scratch⟩

theorem surroundings_eq_iff {s : Session} {maxDepth depth : Int} {scratch : Scope} :
    s.surroundings = ⟨maxDepth, depth, scratch⟩ ↔
      s.maxDepth = maxDepth ∧ s.depth = depth ∧ s.scratch = scratch := by
  rw [surroundings, Surroundings.mk.injEq]

/-- The session in other surroundings. -/
def movedTo (s : Session) (w : Surroundings) : Session :=
  { s with maxDepth := w.maxDepth, depth := w.depth, scratch := w.scratch }

end Session

open MacroScript.Action Session

/-- An evaluation leaves its surroundings as they were, whatever its stock of levels, and takes back
nothing that was emitted. -/
theorem Session.evaluateWith_restores {s : Session} (hf : s.Follows .selfContained)
    (hsound : s.scratch.Sound) (levels : Nat) (e : Expr) :
    ((evaluateWith levels e).final s).Follows .selfContained ∧
      ((evaluateWith levels e).final s).surroundings = s.surroundings ∧
      s.emitted <:+ ((evaluateWith levels e).final s).emitted := by
  have hs : (Discipline.idle .hostless fun _ => True).holds s :=
    ⟨hf.of_not_hosts id _, fun _ _ _ _ => trivial, nofun⟩
  obtain ⟨hholds, htidied, -⟩ :=
    Discipline.evaluateWith_tidied HostRules.hostless_considerate hs levels e
  refine ⟨hholds.1.of_not_hosts id _, ?_, htidied.emitted⟩
  have hmaxDepth : ((evaluateWith levels e).final s).maxDepth = s.maxDepth :=
    congrArg Limits.maxDepth htidied.limits
  unfold surroundings
  rw [hmaxDepth, htidied.depth, htidied.scratch.eq hsound]

/-- A run, and the same run in surroundings that are related to its own. -/
def moving (related : Surroundings → Surroundings → Prop) (buffers : BufferId → Prop)
    (faults : Fault → Fault → Prop) : Simulation where
  states s s' := s.Follows .selfContained ∧ ∃ w, related s.surroundings w ∧ s' = s.movedTo w
  trees := Eq
  names _ := True
  buffers := buffers
  fits _ args args' := args = args'
  faults := faults
  cut := False

section Moving

variable {related : Surroundings → Surroundings → Prop} {buffers : BufferId → Prop}
  {faults : Fault → Fault → Prop} {e e' : Expr}

theorem moving_define (hsame : ∀ fault, faults fault fault) (target params body : Expr) :
    (moving related buffers faults).relation.Relates (HostValue.IsValue fun _ => True)
      (Builtin.callDefine target params body) (Builtin.callDefine target params body) := by
  refine Simulation.relates_callDefine (.inr hsame) ?_ ?_
  · rintro s _ ⟨-, w, -, rfl⟩
    exact ⟨rfl, rfl, rfl⟩
  · cases Builtin.definition target params body with
    | error fault => exact .error (.inr (hsame fault))
    | ok d =>
        refine .ok rfl ?_
        rintro s _ ⟨hf, w, hw, rfl⟩
        exact ⟨hf.install trivial, w, hw, rfl⟩

theorem moving_lawful (hsame : ∀ fault, faults fault fault)
    (hguarded : ∀ name {fault fault'}, faults fault fault' →
      faults (Function.guardedFault name fault) (Function.guardedFault name fault'))
    (henter : (moving related buffers faults).relation.Relates (fun _ => True) enter enter)
    (hleave : (moving related buffers faults).relation.Relates (fun _ => True) leave leave)
    (hscratch : (moving related buffers faults).Scratch) :
    (moving related buffers faults).Lawful where
  same := .inr hsame
  guarded := hguarded
  literal _ := rfl
  enter := henter
  leave := hleave
  emit text := by
    rintro s _ ⟨hf, w, hw, rfl⟩
    exact .inr ⟨.ok trivial, hf, w, hw, rfl⟩
  scratch := hscratch
  contains := by
    rintro s _ name - ⟨-, w, -, rfl⟩
    rfl
  keeps h := h.elim
  insert := by
    rintro s _ name e _ - - rfl ⟨hf, w, hw, rfl⟩
    exact ⟨hf, w, hw, rfl⟩
  erase := by
    rintro s _ name - - ⟨hf, w, hw, rfl⟩
    exact ⟨hf, w, hw, rfl⟩
  lookupVar := by
    rintro s _ name - ⟨-, w, -, rfl⟩
    exact Simulation.bound_self fun _ _ => rfl
  lookupFunction := by
    rintro s _ name args _ heq ⟨hf, w, -, rfl⟩
    cases heq
    have hfunctions : (s.movedTo w).functions = s.functions := rfl
    rw [hfunctions]
    cases hfind : s.functions.find? name with
    | none => exact .none
    | some fn =>
        exact .some ⟨rfl, rfl, Simulation.callables_self (fun _ _ => rfl)
          (fun _ _ => ⟨fun _ _ => trivial, rfl⟩) (hf name fn hfind).hosts⟩
  each := by
    rintro b args _ rfl
    exact List.forall₂_same.mpr fun _ _ => rfl
  target := by
    rintro target _ e _ heq
    cases heq
    exact Simulation.relates_expectVar (.inr hsame) fun _ _ => trivial
  define := by
    rintro target params body _ _ _ heq
    cases heq
    exact moving_define hsame target params body

theorem moving_heads (h : (moving related buffers faults).trees e e') :
    (moving related buffers faults).Heads e e' := by
  cases h
  exact .of_self fun _ _ _ _ _ => rfl

end Moving

end MacroScript
