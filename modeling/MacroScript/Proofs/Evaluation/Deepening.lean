import MacroScript.Proofs.Action.Row
import MacroScript.Proofs.Evaluation.DepthBudget
import MacroScript.Proofs.Evaluation.Surroundings

/-!
# Evaluations one level deeper

A run that takes place one level deeper, under a limit that is larger by one, is
the same run. It fails where the other one does, and only the fault of the limit
tells the two apart, since it names the limit.

That is what it takes for a loop that evaluates expressions one after another at
the top to agree with a single call of `do` that has them as arguments. The loop
also resets the scratch scope behind each of them, but there is nothing in it: no
evaluation leaves anything there.
-/
namespace MacroScript

open MacroScript.Action Session

namespace Surroundings

/-- One level deeper, under a limit that is larger by one. -/
def deepened (w : Surroundings) : Surroundings := ⟨w.maxDepth + 1, w.depth + 1, w.scratch⟩

end Surroundings

def Session.deepened (s : Session) : Session := s.movedTo s.surroundings.deepened

/-- The same fault, but for the limit on the depth that it names. -/
def Fault.Deeper (fault fault' : Fault) : Prop :=
  fault' = fault ∨
    ∃ limit, fault = .eval (.recursionLimit limit) ∧ fault' = .eval (.recursionLimit (limit + 1))

theorem Fault.Deeper.name {fault fault' : Fault} (h : fault.Deeper fault') :
    fault'.name = fault.name := by
  obtain rfl | ⟨limit, rfl, rfl⟩ := h
  · rfl
  · rfl

theorem Fault.Deeper.guarded (name : String) {fault fault' : Fault} (h : fault.Deeper fault') :
    (Function.guardedFault name fault).Deeper (Function.guardedFault name fault') := by
  obtain rfl | ⟨limit, rfl, rfl⟩ := h
  · exact .inl rfl
  · exact .inr ⟨limit, rfl, rfl⟩

/-- A run, and the same run one level deeper. -/
def deepening : Simulation :=
  moving (fun w w' => w' = w.deepened) (fun _ => True) Fault.Deeper

theorem deepening_states_iff {s s' : Session} :
    deepening.states s s' ↔ s.Follows .selfContained ∧ s' = s.deepened := by
  constructor
  · rintro ⟨hf, _, rfl, rfl⟩
    exact ⟨hf, rfl⟩
  · rintro ⟨hf, rfl⟩
    exact ⟨hf, _, rfl, rfl⟩

theorem deepening_enter : deepening.relation.Relates (fun _ => True) enter enter := by
  intro s s' hstates
  obtain ⟨hf, rfl⟩ := deepening_states_iff.mp hstates
  by_cases hroom : s.depth < s.maxDepth
  · have hroom' : s.deepened.depth < s.deepened.maxDepth := Int.add_lt_add_right hroom 1
    refine .of_ok trivial ?_ (enter_of_room hroom) (enter_of_room hroom')
    exact deepening_states_iff.mpr ⟨hf, rfl⟩
  · have hfull : s.maxDepth ≤ s.depth := Int.not_lt.mp hroom
    have hfull' : s.deepened.maxDepth ≤ s.deepened.depth := Int.add_le_add_right hfull 1
    obtain ⟨hr, hfinal⟩ := eq_error_iff.mp (enter_of_no_room hfull)
    obtain ⟨hr', hfinal'⟩ := eq_error_iff.mp (enter_of_no_room hfull')
    unfold Simulation.Meets
    rw [hr, hfinal, hr', hfinal']
    exact .inr ⟨.error (.inr ⟨s.maxDepth, rfl, rfl⟩), hstates⟩

theorem deepening_leave : deepening.relation.Relates (fun _ => True) leave leave := by
  intro s s' hstates
  obtain ⟨hf, rfl⟩ := deepening_states_iff.mp hstates
  refine .inr ⟨.ok trivial, deepening_states_iff.mpr ⟨hf, ?_⟩⟩
  have hdepth : s.depth + 1 - 1 = s.depth - 1 + 1 := by omega
  simp only [final_leave, deepened, movedTo, surroundings, Surroundings.deepened, hdepth]

theorem deepening_lawful : deepening.Lawful := by
  refine moving_lawful (fun _ => .inl rfl) Fault.Deeper.guarded deepening_enter deepening_leave ?_
  refine .of_same (.inr fun _ => .inl rfl) (fun _ => trivial) ?_ ?_
  · rintro s _ ⟨-, _, rfl, rfl⟩
    rfl
  · rintro s _ scratch ⟨hf, _, rfl, rfl⟩
    exact ⟨hf, _, rfl, rfl⟩

theorem deepening_evaluateWith (levels : Nat) (e : Expr) :
    deepening.relation.Relates (HostValue.IsValue fun _ => True) (evaluateWith levels e)
      (evaluateWith levels e) := by
  induction levels generalizing e with
  | zero =>
      intro s s' hstates
      obtain ⟨-, rfl⟩ := deepening_states_iff.mp hstates
      exact .inr ⟨.error (.inr ⟨s.maxDepth, rfl, rfl⟩), hstates⟩
  | succ levels ih =>
      refine deepening_lawful.nested (deepening_lawful.evaluateStep ?_ rfl (moving_heads rfl))
      rintro e _ rfl
      exact ih e

namespace Surroundings

/-- Nothing is being evaluated, and the scratch scope is empty. -/
structure AtRest (w : Surroundings) : Prop where
  depth : w.depth = 0
  used : w.scratch.used = 0
  kept : w.scratch.kept = []

variable {w : Surroundings} (h : w.AtRest)
include h

theorem AtRest.reset : w.scratch.reset = w.scratch := by
  have hused := h.used
  have hkept := h.kept
  generalize w.scratch = scratch at hused hkept ⊢
  cases scratch
  simp_all [Scope.reset]

theorem AtRest.sound : w.scratch.Sound := Scope.sound_of_kept h.kept

end Surroundings

/-- The loop between two of its evaluations, and a call of `do` between two of its arguments. -/
def resting (w : Surroundings) : Simulation :=
  deepening.between fun s s' => s.Follows .selfContained ∧ s.surroundings = w ∧ s' = s.deepened

section Resting

variable {w : Surroundings} {levels : Nat} {s : Session}

theorem evaluateTop_of_atRest (hf : s.Follows .selfContained) (hw : s.surroundings.AtRest)
    (e : Expr) : Evaluator.evaluateTop evaluate e s = evaluate e s := by
  have hsame : ((evaluate e).final s).surroundings = s.surroundings :=
    (evaluateWith_restores hf hw.sound s.levels e).2.1
  obtain ⟨-, hdepth, hscratch⟩ := surroundings_eq_iff.mp hsame
  replace hdepth := hdepth.trans hw.depth
  have hreset : ((evaluate e).final s).scratch.reset = ((evaluate e).final s).scratch := by
    rw [hscratch]
    exact hw.reset
  refine apply_eq Discipline.result_atTop ?_
  rw [Evaluator.evaluateTop, Discipline.final_atTop, if_pos hdepth, hreset]

theorem resting_evaluateWith (hw : w.AtRest) (hlevels : w.maxDepth.toNat ≤ levels) (e : Expr) :
    (resting w).relation.Relates (HostValue.IsValue fun _ => True)
      (Evaluator.evaluateTop evaluate e) (evaluateWith levels e) := by
  rintro s _ ⟨hf, rfl, rfl⟩
  have henough : evaluateWith levels e s = evaluate e s := by
    refine evaluateWith_of_enough (hf.of_not_hosts id _) (Nat.le_trans ?_ hlevels) e
    have hdepth : s.depth = 0 := hw.depth
    rw [hdepth, Int.sub_zero]
    rfl
  have hstates : deepening.states s s.deepened := deepening_states_iff.mpr ⟨hf, rfl⟩
  have htop : Evaluator.evaluateTop evaluate e s = evaluateWith levels e s :=
    (evaluateTop_of_atRest hf hw e).trans henough.symm
  have hfinal : Action.final (Evaluator.evaluateTop evaluate e) s =
      (evaluateWith levels e).final s := by
    rw [Action.final, htop]
    rfl
  obtain ⟨hf', hsame, -⟩ := evaluateWith_restores hf hw.sound levels e
  refine ((deepening_evaluateWith levels e _ _ hstates).congr htop rfl).between fun hstates' => ?_
  rw [hfinal] at hstates' ⊢
  exact ⟨hf', hsame, (deepening_states_iff.mp hstates').2⟩

theorem resting_evaluate (hw : w.AtRest) (e : Expr) :
    (resting w).relation.Relates (HostValue.IsValue fun _ => True)
      (Evaluator.evaluateTop evaluate e) (evaluate e) := by
  rintro s s' ⟨hf, rfl, rfl⟩
  have hlevels : s.surroundings.maxDepth.toNat ≤ s.deepened.levels := by
    simp only [levels, deepened, movedTo, surroundings, Surroundings.deepened]
    omega
  exact (resting_evaluateWith hw hlevels e s s.deepened ⟨hf, rfl, rfl⟩).congr rfl rfl

/-- The loop and the arguments of a call of `do` get equally far. -/
theorem resting_row {kind : HostValue → Prop} {ev : Evaluator} (hf : s.Follows .selfContained)
    (hev : ∀ e, (resting s.surroundings).relation.Relates kind
      (Evaluator.evaluateTop evaluate e) (ev e)) (es : List Expr) :
    (resting s.surroundings).Meets (fun _ => True)
        (inTurn (es.map (Evaluator.evaluateTop evaluate))) (inTurn (es.map ev)) s s.deepened ∧
      completed (es.map (Evaluator.evaluateTop evaluate)) s =
        completed (es.map ev) s.deepened := by
  have hrow : List.Forall₂ ((resting s.surroundings).relation.Relates kind)
      (es.map (Evaluator.evaluateTop evaluate)) (es.map ev) := by
    rw [List.forall₂_map_left_iff, List.forall₂_map_right_iff]
    exact List.forall₂_same.mpr fun e _ => hev e
  exact Simulation.Meets.inTurn id hrow ⟨hf, rfl, rfl⟩

end Resting

namespace Builtin

theorem evalAll_eq (ev : Evaluator) (es : List Expr) : evalAll ev es = inTurn (es.map ev) := by
  induction es with
  | nil => rfl
  | cons e es ih =>
      rw [evalAll, ih]
      rfl

end Builtin

namespace Evaluator

theorem evaluateEach_eq (ev : Evaluator) (es : List Expr) (s : Session) :
    (ev.evaluateEach es).final s = (inTurn (es.map ev.evaluateTop)).final s ∧
      ((ev.evaluateEach es).result s).map (fun _ => ()) =
        (inTurn (es.map ev.evaluateTop)).result s := by
  induction es generalizing s with
  | nil => exact ⟨rfl, rfl⟩
  | cons e es ih =>
      rw [List.map_cons, evaluateEach, inTurn]
      cases hr : (ev.evaluateTop e).result s with
      | error fault =>
          rw [final_bind_error hr, result_bind_error hr, final_bind_error hr, result_bind_error hr]
          exact ⟨rfl, rfl⟩
      | ok v =>
          rw [final_bind_ok hr, result_bind_ok hr, final_bind_ok hr, result_bind_ok hr]
          obtain ⟨hfinal, hresult⟩ := ih ((ev.evaluateTop e).final s)
          rw [final_bind_of_final fun _ _ => rfl, ← hfinal, ← hresult]
          refine ⟨rfl, ?_⟩
          cases hrest : (ev.evaluateEach es).result ((ev.evaluateTop e).final s) with
          | ok values =>
              rw [result_bind_ok hrest]
              rfl
          | error fault => rw [result_bind_error hrest]

end Evaluator

namespace Session

variable {s : Session}

theorem final_leave_deepened : leave.final s.deepened = { s with maxDepth := s.maxDepth + 1 } := by
  simp only [final_leave, deepened, movedTo, surroundings, Surroundings.deepened,
    Int.add_sub_cancel]

theorem evaluateEach_of_no_room (hf : s.Follows .selfContained) (hw : s.surroundings.AtRest)
    (hfull : s.maxDepth ≤ s.depth) (e : Expr) (es : List Expr) :
    Evaluator.evaluateEach evaluate (e :: es) s =
      .error (.eval (.recursionLimit s.maxDepth)) s :=
  bind_of_error ((evaluateTop_of_atRest hf hw e).trans (evaluate_of_no_room hfull))

/-- Where there is room for it, a call of `do` evaluates its arguments in turn, one level deeper. -/
theorem evaluate_do_of_room (hdo : s.functions.find? "do" = some (.ofBuiltin .doAll))
    (hroom : s.depth ≤ s.maxDepth) (es : List Expr) :
    (evaluate (.call "do" es)).final { s with maxDepth := s.maxDepth + 1 } =
        leave.final ((inTurn (es.map (evaluateWith s.deepened.levels))).final s.deepened) ∧
      (evaluate (.call "do" es)).result { s with maxDepth := s.maxDepth + 1 } =
        ((inTurn (es.map (evaluateWith s.deepened.levels))).result s.deepened).map
          fun _ => .expr .void := by
  have hcall : evaluate (.call "do" es) { s with maxDepth := s.maxDepth + 1 } =
      Action.ensuring (Builtin.call (evaluateWith s.deepened.levels) .doAll es) leave s.deepened :=
    evaluate_builtin_of_room (s := { s with maxDepth := s.maxDepth + 1 }) hdo
      (Int.lt_add_one_of_le hroom)
  have hdoall : ∀ ev : Evaluator, Builtin.call ev .doAll es =
      (do inTurn (es.map ev); return .expr .void : Action Session HostValue) := by
    intro ev
    rw [← Builtin.evalAll_eq]
    rfl
  rw [hdoall] at hcall
  constructor
  · rw [final, hcall]
    exact final_ensuring.trans (congrArg _ (final_bind_of_final fun _ _ => rfl))
  · rw [result, hcall]
    refine (result_ensuring_ok result_leave).trans ?_
    cases hr : (inTurn (es.map (evaluateWith s.deepened.levels))).result s.deepened with
    | ok _ => exact result_bind_ok hr
    | error fault => exact result_bind_error hr

/-- Evaluating expressions one after another at the top and evaluating a call of `do` with them as
arguments, under a limit on the depth that is larger by one, come to the same: the same texts,
variables, functions and arena, and the same number of completed expressions. Both succeed, or both
fail with faults of one class. Only without any room is the call of `do` refused where there is
nothing to evaluate. -/
theorem evaluateEach_do (hf : s.Follows .selfContained)
    (hdo : s.functions.find? "do" = some (.ofBuiltin .doAll)) (hdepth : s.depth = 0)
    (hused : s.scratch.used = 0) (hkept : s.scratch.kept = []) (es : List Expr)
    (hroom : es = [] → 0 ≤ s.maxDepth) :
    let deeper : Session := { s with maxDepth := s.maxDepth + 1 }
    (evaluate (.call "do" es)).final deeper =
        { (Evaluator.evaluateEach evaluate es).final s with maxDepth := s.maxDepth + 1 } ∧
      completed (es.map evaluate) { deeper with depth := 1 } =
        completed (es.map (Evaluator.evaluateTop evaluate)) s ∧
      ((∃ values, (Evaluator.evaluateEach evaluate es).result s = .ok values ∧
          (evaluate (.call "do" es)).result deeper = .ok (.expr .void)) ∨
        ∃ fault fault', (Evaluator.evaluateEach evaluate es).result s = .error fault ∧
          (evaluate (.call "do" es)).result deeper = .error fault' ∧ fault'.name = fault.name) := by
  intro deeper
  have hw : s.surroundings.AtRest := ⟨hdepth, hused, hkept⟩
  have hwithin : ({ deeper with depth := 1 } : Session) = s.deepened := by
    simp only [deeper, deepened, movedTo, surroundings, Surroundings.deepened, hdepth, Int.zero_add]
  obtain ⟨hfinal, hresult⟩ := Evaluator.evaluateEach_eq evaluate es s
  rw [hwithin, (resting_row hf (resting_evaluate hw) es).2]
  by_cases hfits : 0 ≤ s.maxDepth
  · have hlevels : s.surroundings.maxDepth.toNat ≤ s.deepened.levels := by
      simp only [levels, deepened, movedTo, surroundings, Surroundings.deepened]
      omega
    obtain ⟨hdofinal, hdoresult⟩ := evaluate_do_of_room hdo (hdepth ▸ hfits) es
    obtain ⟨hcut, -⟩ | ⟨hends, -, hsame, hafter⟩ :=
      (resting_row hf (resting_evaluateWith hw hlevels) es).1
    · exact hcut.elim
    · obtain ⟨hmaxDepth, -⟩ := surroundings_eq_iff.mp hsame
      rw [← hresult] at hends
      rw [hdofinal, hdoresult, hafter, final_leave_deepened, hfinal, hmaxDepth]
      refine ⟨rfl, rfl, ?_⟩
      generalize (inTurn (es.map (evaluateWith s.deepened.levels))).result s.deepened = end'
        at hends
      cases hdriver : (Evaluator.evaluateEach evaluate es).result s with
      | ok values =>
          rw [hdriver] at hends
          cases hends
          exact .inl ⟨values, rfl, rfl⟩
      | error fault =>
          rw [hdriver] at hends
          cases hends with
          | error hfaults => exact .inr ⟨fault, _, rfl, rfl, hfaults.name⟩
  · -- The first expression finds no room either.
    obtain ⟨e, rest, rfl⟩ := List.exists_cons_of_ne_nil (mt hroom hfits)
    have hfull : s.maxDepth ≤ s.depth := by omega
    have hfull' : deeper.maxDepth ≤ deeper.depth := by
      change s.maxDepth + 1 ≤ s.depth
      omega
    obtain ⟨hr, hf'⟩ := eq_error_iff.mp (evaluateEach_of_no_room hf hw hfull e rest)
    obtain ⟨hr', hf''⟩ := eq_error_iff.mp (evaluate_of_no_room (e := .call "do" (e :: rest)) hfull')
    rw [hr, hf', hr', hf'']
    exact ⟨rfl, rfl, .inr ⟨_, _, rfl, rfl, rfl⟩⟩

/-- A session with a variable that is bound to itself. -/
def selfReferring : Session :=
  { (fresh ⟨3, 200, none, none⟩).installBuiltins with
    vars := Table.empty.insert "x" (.expr (.var "x")) }

/-- Both print a text and fail at the variable; only the limits that the faults name differ. -/
theorem evaluateEach_do_selfReferring :
    let es : List Expr := [.call "echo" [.string "a"], .var "x"]
    let deeper : Session := { selfReferring with maxDepth := selfReferring.maxDepth + 1 }
    ((evaluate (.call "do" es)).final deeper).emitted = ["a"] ∧
      completed (es.map evaluate) { deeper with depth := 1 } = 1 ∧
      (Evaluator.evaluateEach evaluate es).result selfReferring =
        .error (.eval (.recursionLimit 3)) ∧
      (evaluate (.call "do" es)).result deeper = .error (.eval (.recursionLimit 4)) := by
  intro es deeper
  have hf : selfReferring.Follows .selfContained := Follows.installBuiltins (.fresh _)
  obtain ⟨hfinal, hcompleted, -⟩ := evaluateEach_do hf rfl rfl rfl rfl es nofun
  rw [hfinal, hcompleted]
  exact ⟨by cbv, by cbv, by cbv, by cbv⟩

/-- A session without any room, not even for the arguments of a call of `do`. -/
def withoutRoom : Session := (fresh ⟨-1, 200, none, none⟩).installBuiltins

/-- There is nothing to fail in a loop over no expressions, but a call of `do` fails. -/
theorem evaluateEach_do_withoutRoom :
    withoutRoom.Follows .selfContained ∧
      withoutRoom.functions.find? "do" = some (.ofBuiltin .doAll) ∧ withoutRoom.depth = 0 ∧
      withoutRoom.scratch.used = 0 ∧ withoutRoom.scratch.kept = [] ∧
      (Evaluator.evaluateEach evaluate []).result withoutRoom = .ok [] ∧
      (evaluate (.call "do" [])).result { withoutRoom with maxDepth := withoutRoom.maxDepth + 1 } =
        .error (.eval (.recursionLimit 0)) := by
  refine ⟨Follows.installBuiltins (.fresh _), rfl, rfl, rfl, rfl, rfl, ?_⟩
  have hfull := evaluate_of_no_room (e := .call "do" [])
    (s := { withoutRoom with maxDepth := withoutRoom.maxDepth + 1 }) (by decide)
  exact (eq_error_iff.mp hfull).1

end Session

end MacroScript
