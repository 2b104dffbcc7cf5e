import MacroScript.Proofs.Evaluation.Surroundings
import MacroScript.Proofs.Scope.Collecting

/-!
# Evaluations that fill a buffer

`echo` and `repeat` put a buffer on top of the scratch scope while they evaluate,
and give it back whatever happens. As the evaluations in between leave the scratch
scope as it was, the buffer is still on top when the next text is written.

Where the scratch scope has no limit, an evaluation does not notice what the
buffers hold that were made before it.
-/
namespace MacroScript

open MacroScript.Action Session

namespace Builtin

variable {α : Type} {s : Session} {action : BufferId → Action Session α}

theorem withBuffer_of_no_room (h : ¬ s.scratch.allows s.scratch.used = true) :
    withBuffer action s = .error (s.scratch.exhausted s.scratch.used) s :=
  bind_of_error (onScratch_error (Scope.newBuffer_of_not_allows h))

/-- What is done with a buffer begins with an empty one on top of the scratch scope, and leaves the
scratch scope as it was if that buffer is still on top. -/
theorem withBuffer_of_room {pieces : List String} (hsound : s.scratch.Sound)
    (h : s.scratch.allows s.scratch.used = true)
    (htop : ((action s.scratch.buffers.length).final
      { s with scratch := s.scratch.collecting [] }).scratch = s.scratch.collecting pieces) :
    (withBuffer action).result s = (action s.scratch.buffers.length).result
        { s with scratch := s.scratch.collecting [] } ∧
      (withBuffer action).final s =
        { (action s.scratch.buffers.length).final { s with scratch := s.scratch.collecting [] } with
          scratch := s.scratch } := by
  have hnew := onScratch_ok (Scope.newBuffer_of_allows h)
  rw [Scope.opened_eq] at hnew
  obtain ⟨hr, hf⟩ := eq_ok_iff.mp hnew
  rw [withBuffer, result_bind_ok hr, final_bind_ok hr, hf]
  generalize { s with scratch := s.scratch.collecting [] } = begun at htop ⊢
  have hholding : Scope.Holding s.scratch.buffers.length
      ((action s.scratch.buffers.length).final begun).scratch := by
    rw [htop]
    exact Scope.holding_collecting
  obtain ⟨hr', hf'⟩ := eq_ok_iff.mp (Discipline.discard_eq hholding)
  rw [result_ensuring_ok hr', final_ensuring, hf', htop, Scope.discarded_collecting hsound]
  exact ⟨rfl, rfl⟩

end Builtin

/-- A run, and the same run where the buffers below a number may hold something else. -/
def elsewhere (n : BufferId) : Simulation :=
  moving (fun w w' => w'.maxDepth = w.maxDepth ∧ w'.depth = w.depth ∧
    w.scratch.MatchesFrom n w'.scratch) (n ≤ ·) Eq

section Elsewhere

variable {n : BufferId}

theorem elsewhere_inStep : (elsewhere n).InStep where
  same := .inr fun _ => rfl
  maxDepth := by
    rintro s _ ⟨-, w, ⟨hmaxDepth, -⟩, rfl⟩
    exact hmaxDepth
  depth := by
    rintro s _ ⟨-, w, ⟨-, hdepth, -⟩, rfl⟩
    exact hdepth
  emitted := by
    rintro s _ ⟨-, w, -, rfl⟩
    rfl
  withDepth := by
    rintro s _ depth ⟨hf, w, ⟨hmaxDepth, -, hscratch⟩, rfl⟩
    exact ⟨hf, { w with depth := depth }, ⟨hmaxDepth, rfl, hscratch⟩, rfl⟩
  withEmitted := by
    rintro s _ emitted ⟨hf, w, hw, rfl⟩
    exact ⟨hf, w, hw, rfl⟩

theorem elsewhere_onScratch {α : Type} {kind : α → Prop} {action : Action Scope α}
    (hblind : Scope.Blind n action)
    (hkind : ∀ scope v, n ≤ scope.buffers.length → action.result scope = .ok v → kind v) :
    (elsewhere n).relation.Relates kind (onScratch action) (onScratch action) := by
  rintro s _ ⟨hf, w, ⟨hmaxDepth, hdepth, hscratch⟩, rfl⟩
  obtain ⟨hresult, hfinal⟩ := hblind _ _ hscratch
  have hkind' := hkind s.scratch
  refine .inr ⟨?_, ?_⟩
  · rw [result_onScratch, result_onScratch]
    change (elsewhere n).Ends kind (action.result s.scratch) (action.result w.scratch)
    change action.result w.scratch = action.result s.scratch at hresult
    rw [hresult]
    cases hr : action.result s.scratch with
    | ok v => exact .ok (hkind' v hscratch.made hr)
    | error fault => exact .error rfl
  · rw [final_onScratch, final_onScratch]
    exact ⟨hf, { w with scratch := action.final w.scratch }, ⟨hmaxDepth, hdepth, hfinal⟩, rfl⟩

theorem elsewhere_scratch : (elsewhere n).Scratch where
  newBuffer := elsewhere_onScratch Scope.newBuffer_blind fun scope id hmade hr => by
    by_cases hroom : scope.allows scope.used = true
    · rw [(eq_ok_iff.mp (Scope.newBuffer_of_allows hroom)).1] at hr
      cases hr
      exact hmade
    · rw [(eq_error_iff.mp (Scope.newBuffer_of_not_allows hroom)).1] at hr
      cases hr
  discard hid := elsewhere_onScratch (Scope.release_blind hid) fun _ _ _ _ => trivial
  write text hid := elsewhere_onScratch (Scope.write_blind hid text) fun _ _ _ _ => trivial
  contents hid := elsewhere_onScratch (Scope.contents_blind hid) fun _ _ _ _ => trivial
  size hid := by
    rintro ⟨-, w, ⟨-, -, hscratch⟩, rfl⟩
    exact congrArg Buffer.size (hscratch.buffer hid)

theorem elsewhere_lawful : (elsewhere n).Lawful :=
  moving_lawful (fun _ => rfl) (fun _ _ _ h => h ▸ rfl) elsewhere_inStep.enter
    elsewhere_inStep.leave elsewhere_scratch

theorem elsewhere_evaluateWith (levels : Nat) (e : Expr) :
    (elsewhere n).relation.Relates (HostValue.IsValue fun _ => True) (evaluateWith levels e)
      (evaluateWith levels e) :=
  elsewhere_lawful.evaluateWith elsewhere_inStep
    (fun hev _ _ he => elsewhere_lawful.evaluateStep hev he (moving_heads he)) levels rfl

/-- Without a limit on the scratch scope, an evaluation does the same whatever the buffers below
hold, and leaves them as they are. -/
theorem Session.evaluateWith_elsewhere {s : Session} {b : Scope} (hf : s.Follows .selfContained)
    (hsound : s.scratch.Sound) (h : s.scratch.MatchesFrom n b) (levels : Nat) (e : Expr) :
    (evaluateWith levels e).result { s with scratch := b } = (evaluateWith levels e).result s ∧
      (evaluateWith levels e).final { s with scratch := b } =
        { (evaluateWith levels e).final s with scratch := b } := by
  have hrestored := (evaluateWith_restores hf hsound levels e).2.1
  have hrestored' := (evaluateWith_restores (s := { s with scratch := b }) hf (h.sound hsound)
    levels e).2.1
  have hstates : (elsewhere n).states s { s with scratch := b } :=
    ⟨hf, ⟨s.maxDepth, s.depth, b⟩, ⟨rfl, rfl, h⟩, rfl⟩
  obtain ⟨hcut, -⟩ | ⟨hends, -, w, -, hfinal⟩ := elsewhere_evaluateWith levels e _ _ hstates
  · exact hcut.elim
  · have hw : w = ⟨s.maxDepth, s.depth, b⟩ := by
      rw [hfinal] at hrestored'
      exact hrestored'
    obtain ⟨hmaxDepth, hdepth, -⟩ := surroundings_eq_iff.mp hrestored
    refine ⟨hends.eq fun h => h.symm, ?_⟩
    rw [hfinal, hw, ← hmaxDepth, ← hdepth]
    rfl

end Elsewhere

end MacroScript
