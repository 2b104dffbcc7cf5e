import Mathlib
import MacroScript.Proofs.Evaluation.TidyRuns

/-!
# Limits only cut a run short

Without functions of the host, a run under larger limits does the same as the
run under smaller ones, as long as that one goes. The one under smaller limits
may be cut short by the fault of a limit; what it has emitted by then has been
emitted by the other one too.

A smaller limit on the depth also means a smaller stock of levels. An evaluation
that has run out of levels ends in the fault that the limit itself gives, so the
two stocks need not be in step for the two evaluations to be comparable.
-/
namespace MacroScript

/-- There are no functions of the host. -/
def HostRules.hostless : HostRules where
  hosts := False
  value _ := True
  fault _ := True
  atTop := False
  resets := False
  closes := False
  binds := False
  unbinds := False

theorem HostRules.hostless_considerate : hostless.Considerate fun _ => True where
  literal _ _ := trivial
  plain _ _ _ := trivial
  ownError _ _ := trivial
  exhausted _ _ _ := trivial
  malformed _ := trivial
  accessor _ _ _ _ := trivial
  notBindable _ _ _ _ := trivial
  guarded _ _ _ := trivial
  resets := nofun
  closes := nofun
  unbinds := nofun

theorem Fault.IsResource.guarded {fault : Fault} (h : fault.IsResource) (name : String) :
    Function.guardedFault name fault = fault := by
  cases fault with
  | foreign reason => rcases h with h | h <;> cases h
  | unspeakable kind failure => rcases h with h | h <;> cases h
  | _ => rfl

theorem Session.levels_le {s : Session} {limits : Limits} (h : s.limits.LE limits) :
    s.levels ≤ (s.withLimits limits).levels := by
  have hdepth : s.maxDepth ≤ limits.maxDepth := h.maxDepth
  change (s.maxDepth - s.depth).toNat + s.maxDepth.toNat ≤
    (limits.maxDepth - s.depth).toNat + limits.maxDepth.toNat
  omega

namespace Coupling

open MacroScript.Action Session Discipline

/-- A run under limits that are at most the given ones is compared with the run under those. -/
def upTo (limits : Limits) : Coupling where
  admits smaller := smaller.LE limits
  limits _ := limits
  cut := Fault.IsResource
  ahead texts more := texts <:+ more

variable {limits : Limits}

theorem upTo_lawful : (upTo limits).Lawful where
  covers _ h := .inr ⟨h, fun _ hresource => hresource⟩
  refl := List.suffix_refl
  trans := List.IsSuffix.trans
  guarded name _ h := h.guarded name

theorem upTo_lifts : (upTo limits).Lifts (tidy .hostless fun _ => True) .hostless
    (filling .hostless fun _ => True) :=
  tidy_lifts upTo_lawful HostRules.hostless_considerate nofun

/-- Evaluations with fewer levels and smaller limits are cut short, or do the same. -/
theorem upTo_evaluateWith {fewer more : Nat} (h : fewer ≤ more) :
    (upTo limits).Matches (tidy .hostless fun _ => True) .hostless (evaluateWith fewer)
      (evaluateWith more) := by
  have L := tidy_lawful HostRules.hostless_considerate
  induction fewer generalizing more with
  | zero =>
      refine fun e => ⟨L.evaluateWith 0 e, L.evaluateWith more e, fun s hs _ => .inr ?_⟩
      refine ⟨.eval (.recursionLimit s.maxDepth), .inr rfl, rfl, ?_⟩
      exact (L.evaluateWith more e (other (upTo limits) s) hs).2.1.emitted
  | succ fewer ih =>
      obtain ⟨more, rfl⟩ := Nat.exists_eq_add_of_le' h
      have hstep := upTo_lifts.evaluateStep (ih (Nat.le_of_succ_le_succ h)) fun _ hfn hhosted =>
        (hfn.hosts hhosted).elim
      exact fun e => upTo_lifts.nested _ _ (hstep e)

theorem upTo_evaluateTop (e : Expr) :
    (upTo limits).Both (idle .hostless fun _ => True) .hostless (fun _ => True)
      (Evaluator.evaluateTop evaluate e) (Evaluator.evaluateTop evaluate e) := by
  have hkeeps := @idle_evaluate _ _ HostRules.hostless_considerate e
  refine Couples.atTop ⟨hkeeps, hkeeps, fun s hs hadmits => ?_⟩ fun s hs _ => idle_resetScratch s hs
  exact (upTo_evaluateWith (levels_le hadmits) e).meet s ⟨hs.1, hs.2.1, nofun⟩ hadmits

theorem upTo_run (text : String) (sourceName : Option String) :
    (upTo limits).Both (idle .hostless fun _ => True) .hostless HostRules.hostless.RunValue
      (run text sourceName) (run text sourceName) :=
  run_both (suits_idle upTo_lawful) upTo_evaluateTop (fun _ => trivial) text sourceName

end Coupling

namespace Session

/-- Unless it is a limit that ends a run, larger limits make no difference to its end, to what is
emitted and to what is left. Otherwise the larger limits only add to what is emitted. -/
theorem run_larger_limits {s : Session} (hs : s.Follows .hostless) {smaller larger : Limits}
    (h : smaller.LE larger) (text : String) (sourceName : Option String) :
    ((∀ fault, (run text sourceName).result (s.withLimits smaller) = .error fault →
        ¬ fault.IsResource) →
      (run text sourceName).result (s.withLimits larger) =
          (run text sourceName).result (s.withLimits smaller) ∧
        (run text sourceName).final (s.withLimits larger) =
          ((run text sourceName).final (s.withLimits smaller)).withLimits larger) ∧
      ((run text sourceName).final (s.withLimits smaller)).output <+:
        ((run text sourceName).final (s.withLimits larger)).output := by
  have hplain : (s.withLimits smaller).BindsPlain fun _ => True := fun _ _ _ _ => trivial
  have hmeet := (Coupling.upTo_run text sourceName).meet (s.withLimits smaller)
    ⟨hs, hplain, nofun⟩ h
  have hother : (Coupling.upTo larger).other (s.withLimits smaller) = s.withLimits larger := rfl
  obtain ⟨hr, hf⟩ | ⟨fault, hresource, hr, hahead⟩ := hmeet
  · rw [hother] at hr hf
    refine ⟨fun _ => ⟨hr, hf⟩, ?_⟩
    rw [hf]
    exact List.prefix_refl _
  · rw [hother] at hahead
    exact ⟨fun hno => absurd hresource (hno fault hr), List.reverse_prefix.mpr hahead⟩

/-- A text for whose echo three characters are enough, and one for which they are not. -/
theorem run_larger_limits_echo :
    let s := (Session.fresh ⟨150, 200, none, none⟩).installBuiltins
    (run "echo(\"ab\")" none).result (s.withLimits ⟨9, none, none⟩) = .ok (.expr .void) ∧
      (run "echo(\"ab\") echo(\"abcd\")" none).result (s.withLimits ⟨2, some 3, none⟩) =
        .error (.scopeExhausted "scratch" 4 3) ∧
      ["ab"] <+: ((run "echo(\"ab\") echo(\"abcd\")" none).final
        (s.withLimits ⟨9, none, none⟩)).output := by
  intro s
  have hs : s.Follows .hostless := Follows.installBuiltins (.fresh _)
  have hle : Limits.LE ⟨2, some 3, none⟩ ⟨9, none, none⟩ := ⟨by decide, trivial, trivial⟩
  have hends : (run "echo(\"ab\")" none).result (s.withLimits ⟨2, some 3, none⟩) =
      .ok (.expr .void) := by cbv
  have hcut : (run "echo(\"ab\") echo(\"abcd\")" none).result (s.withLimits ⟨2, some 3, none⟩) =
      .error (.scopeExhausted "scratch" 4 3) := by cbv
  have houtput : ((run "echo(\"ab\") echo(\"abcd\")" none).final
      (s.withLimits ⟨2, some 3, none⟩)).output = ["ab"] := by cbv
  refine ⟨?_, hcut, ?_⟩
  · rw [((run_larger_limits hs hle "echo(\"ab\")" none).1 fun fault hfault => ?_).1, hends]
    rw [hends] at hfault
    cases hfault
  · rw [← houtput]
    exact (run_larger_limits hs hle _ none).2

end Session

end MacroScript
