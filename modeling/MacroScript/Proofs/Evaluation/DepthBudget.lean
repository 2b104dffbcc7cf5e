import MacroScript.Proofs.Evaluation.Depth
import MacroScript.Proofs.Evaluation.Levels
import MacroScript.Proofs.Evaluation.Regions

/-!
# The depth limit ends every evaluation

The recursion of an evaluation does not follow the expression: a variable or a
defined function leads to any other tree, and may lead back to itself. What grows
at every step is the depth, up to its limit. So an evaluation can be unrolled as
often as there is room for nested ones, and it never comes to what lies below.

That each nested evaluation gives its depth back is needed on the way: only then
is there less room in every evaluation that a step asks for.
-/
namespace MacroScript

open Session

/-- The evaluator unrolled so many times, on top of another one. -/
def Evaluator.unrolled (below : Evaluator) : Nat → Evaluator
  | 0 => below
  | levels + 1 => fun e => do
      enter
      (evaluateStep (below.unrolled levels) e).ensuring leave

namespace Session

/-- The depth is within its limit, and fewer evaluations than the given number fit in between. -/
def HasRoomBelow (levels : Nat) (s : Session) : Prop :=
  s.depth ≤ s.maxDepth ∧ s.maxDepth < s.depth + levels

/-- The depth is between the given one and the given limit. -/
def IsBetween (depth limit : Int) (s : Session) : Prop :=
  depth ≤ s.depth ∧ s.depth ≤ s.maxDepth ∧ s.maxDepth = limit

/-- A region that is described in terms of the depth and its limit, and is not left by entering. -/
structure IsDepthRegion (region : Session → Prop) : Prop where
  same : ∀ s t : Session, t.maxDepth = s.maxDepth → t.depth = s.depth → region s → region t
  entered : ∀ s, region s → s.depth < s.maxDepth → region { s with depth := s.depth + 1 }

theorem hasRoomBelow_isDepthRegion (levels : Nat) : IsDepthRegion (HasRoomBelow levels) where
  same s t hmax hdepth hs := by
    unfold HasRoomBelow
    rw [hmax, hdepth]
    exact hs
  entered s hs hroom := ⟨hroom, by have := hs.2; dsimp only; omega⟩

theorem isBetween_isDepthRegion (depth limit : Int) : IsDepthRegion (IsBetween depth limit) where
  same s t hmax hdepth hs := by
    unfold IsBetween
    rw [hmax, hdepth]
    exact hs
  entered s hs hroom := ⟨Int.le_trans hs.1 (Int.le_add_one (Int.le_refl _)), hroom, hs.2.2⟩

theorem HasRoomBelow.entered {levels : Nat} {s : Session} (h : s.HasRoomBelow (levels + 1))
    (hroom : s.depth < s.maxDepth) : HasRoomBelow levels { s with depth := s.depth + 1 } := by
  refine ⟨hroom, ?_⟩
  have := h.2
  dsimp only
  omega

end Session

namespace Discipline

variable {rules : HostRules} {plain : HostValue → Prop} {region : Session → Prop}

theorem keepingDepth_stays (hcloses : ¬ rules.closes) (h : IsDepthRegion region) :
    (keepingDepth rules plain).Stays region := by
  rintro s t - - ⟨hmax, hdepth | ⟨hclosed, -⟩⟩ hs
  · exact h.same s t hmax hdepth hs
  · exact absurd hclosed hcloses

theorem keepingDepth_descends (h : IsDepthRegion region) :
    ((keepingDepth rules plain).within region).Descends
      fun _ => (keepingDepth rules plain).within region where
  entered s hs hroom := ⟨hs.1, h.entered s hs.2 hroom⟩
  bound s _ _ _ hs hbound := ⟨⟨hs.1.1, hbound.bindsPlain hs.1.2⟩, h.same s _ rfl rfl hs.2⟩
  opened s hs := ⟨hs.1, h.same s _ rfl rfl hs.2⟩
  outside _ _ hs := hs

theorem keepingDepth_within (hrules : rules.Lenient plain) (hcloses : ¬ rules.closes)
    (h : IsDepthRegion region) : ((keepingDepth rules plain).within region).Lawful rules
      fun _ => (keepingDepth rules plain).within region :=
  (keepingDepth_lawful hrules).within (keepingDepth_stays hcloses h)
    (fun _ => keepingDepth_stays hcloses h) (keepingDepth_descends h)

/-- Where there is room for fewer evaluations than are unrolled, it does not matter what is below. -/
theorem unrolled_eq (hrules : rules.Lenient plain) (hcloses : ¬ rules.closes) (below : Evaluator)
    {room levels stock : Nat} (hlevels : room ≤ levels) (hstock : room ≤ stock + 1) (e : Expr)
    (s : Session) (hs : ((keepingDepth rules plain).within (HasRoomBelow room)).holds s) :
    below.unrolled levels e s = evaluateWith stock e s := by
  induction room generalizing levels stock e s with
  | zero =>
      have hroom := hs.2
      unfold HasRoomBelow at hroom
      omega
  | succ room ih =>
      obtain ⟨levels, rfl⟩ : ∃ fewer, levels = fewer + 1 := ⟨levels - 1, by omega⟩
      by_cases hroom : s.depth < s.maxDepth
      · have hbelow := hs.2.2
        obtain ⟨stock, rfl⟩ : ∃ more, stock = more + 1 := ⟨stock - 1, by omega⟩
        have hregion := hasRoomBelow_isDepthRegion room
        have L := keepingDepth_within hrules hcloses hregion
        have hentered : ((keepingDepth rules plain).within (HasRoomBelow room)).holds
            { s with depth := s.depth + 1 } := ⟨hs.1, hs.2.entered hroom⟩
        refine nested_congr fun _ => (L.evaluateStep_congr (keepingDepth_descends hregion)
          (L.evaluateWith stock) (fun e t ht => ?_) hentered e).symm
        exact (ih (by omega) (by omega) e t ht).symm
      · have hfull := enter_of_no_room (Int.not_lt.mp hroom)
        have hunrolled : below.unrolled (levels + 1) e s =
            .error (.eval (.recursionLimit s.maxDepth)) s := by
          unfold Evaluator.unrolled
          rw [Action.bind_error (Action.eq_error_iff.mp hfull).1, (Action.eq_error_iff.mp hfull).2]
        exact hunrolled.trans (evaluateWith_of_no_room (Int.not_lt.mp hroom)).symm

end Discipline

/-- With a level for every evaluation for which there is room, the stock makes no difference. -/
theorem Session.evaluateWith_of_enough {s : Session} (h : s.Follows (.free False)) {levels : Nat}
    (hlevels : (s.maxDepth - s.depth).toNat ≤ levels) (e : Expr) :
    evaluateWith levels e s = evaluate e s := by
  by_cases hdepth : s.depth ≤ s.maxDepth
  · have hs : ((Discipline.keepingDepth (.free False) fun _ => True).within
        (HasRoomBelow ((s.maxDepth - s.depth).toNat + 1))).holds s :=
      ⟨⟨h, fun _ _ _ _ => trivial⟩, hdepth, by omega⟩
    have hunrolled : ∀ {stock : Nat}, (s.maxDepth - s.depth).toNat ≤ stock →
        Evaluator.unrolled (fun _ => pure .absent) ((s.maxDepth - s.depth).toNat + 1) e s =
          evaluateWith stock e s := fun hstock =>
      Discipline.unrolled_eq (HostRules.free_lenient False) id _ (Nat.le_refl _)
        (Nat.succ_le_succ hstock) e s hs
    exact (hunrolled hlevels).symm.trans (hunrolled (Nat.le_add_right ..))
  · have hfull : s.maxDepth ≤ s.depth := Int.le_of_lt (Int.not_le.mp hdepth)
    rw [evaluate_of_no_room hfull, evaluateWith_of_no_room hfull]

/-- Where no host closes the session, an evaluation comes to an end within the limit on the depth:
what would be done below the evaluations for which there is room makes no difference. The depth is
given back by the evaluation and by all that it encloses, on a value and on every fault, and none of
them takes it above the limit. -/
theorem Session.evaluate_within_budget {s : Session} (h : s.Follows (.free False))
    (hdepth : s.depth ≤ s.maxDepth) (e : Expr) :
    (∀ (below : Evaluator) (levels : Nat), s.maxDepth < s.depth + levels →
      below.unrolled levels e s = evaluate e s) ∧
    ((evaluate e).final s).depth = s.depth ∧
    ∀ F, (s.evaluation e).Encloses F → s.depth ≤ F.start.depth ∧
      (enter.final F.start).depth ≤ s.maxDepth ∧ F.final.depth = F.start.depth := by
  have hrules := HostRules.free_lenient False
  have L := Discipline.keepingDepth_lawful hrules
  have hs : (Discipline.keepingDepth (.free False) fun _ => True).holds s :=
    ⟨h, fun _ _ _ _ => trivial⟩
  have hgives : ∀ F : Evaluation,
      (Discipline.keepingDepth (.free False) fun _ => True).holds F.start →
      F.final.depth = F.start.depth := by
    intro F hF
    obtain hkept | ⟨hcloses, -⟩ := (L.evaluateWith F.levels F.expr F.start hF).2.1.2
    · exact hkept
    · exact hcloses.elim
  refine ⟨fun below levels hlevels => ?_, hgives (s.evaluation e) hs, fun F hencloses => ?_⟩
  · have hroom : s.HasRoomBelow ((s.maxDepth - s.depth).toNat + 1) := ⟨hdepth, by omega⟩
    refine Discipline.unrolled_eq hrules id below (by omega) ?_ e s ⟨hs, hroom⟩
    unfold Session.levels
    omega
  · have hregion := isBetween_isDepthRegion s.depth s.maxDepth
    have hbetween : s.IsBetween s.depth s.maxDepth := ⟨Int.le_refl _, hdepth, rfl⟩
    have hwithin := Discipline.keepingDepth_within hrules id hregion
    obtain ⟨hF, hlow, hhigh, hmax⟩ := hwithin.holds_of_encloses
      (Discipline.keepingDepth_descends hregion) hencloses ⟨hs, hbetween⟩
    refine ⟨hlow, ?_, hgives F hF⟩
    unfold Action.final
    rw [enter_eq]
    split_ifs with hfull
    · rw [← hmax]
      exact hhigh
    · rw [← hmax]
      exact Int.not_le.mp hfull

/-- A variable that is bound to itself. -/
theorem Session.evaluate_within_budget_selfReference :
    let s : Session := { fresh ⟨3, 200, none, none⟩ with
      vars := Table.empty.insert "x" (.expr (.var "x")) }
    (Evaluator.unrolled (fun _ => pure .absent) 4 (.var "x")).result s =
      .error (.eval (.recursionLimit 3)) := by
  intro s
  have hunrolled := (Session.evaluate_within_budget (s := s) nofun (by decide) (.var "x")).1
    (fun _ => pure .absent) 4 (by decide)
  rw [Action.result, hunrolled]
  rfl

end MacroScript
