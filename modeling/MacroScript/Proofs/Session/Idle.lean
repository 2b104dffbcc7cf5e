import Mathlib
import MacroScript.Proofs.Evaluation.Depth

/-!
# Sessions between evaluations

What is left when no evaluation is in progress. A session that its user builds
up and runs has depth zero and an empty scratch scope between the runs, as long
as no host function closes it in the midst of an evaluation. One that does sets
the depth to zero, and the evaluations in progress then leave it below zero.
From there on the scratch scope is not reset any more.
-/
namespace MacroScript

open MacroScript.Action

namespace Session

/-- What the user of a session does between evaluations. -/
inductive Use where
  | installBuiltins
  | register (name : String) (isHost : Bool) (fn : HostFunction)
  | setVar (name : String) (value : HostValue)
  | evaluate (e : Expr)
  | run (text : String) (sourceName : Option String)
  | execute (text : String) (sourceName : Option String)
  | resetScratch
  | close

/-- The session afterwards, whether or not there was a fault. -/
def Use.final (s : Session) : Use → Session
  | installBuiltins => s.installBuiltins
  | register name isHost fn => (s.registerHost name isHost fn).2
  | setVar name value => (setHostVar name value).final s
  | evaluate e => (evaluateTop (.expr e)).final s
  | run text sourceName => (Session.run text sourceName).final s
  | execute text sourceName => (Session.execute text sourceName).final s
  | resetScratch => { s with scratch := s.scratch.reset }
  | close => s.closed

/-- The session after one use after another. -/
def after (s : Session) (uses : List Use) : Session := uses.foldl Use.final s

def Use.Follows (rules : HostRules) : Use → Prop
  | register name isHost fn => (⟨name, isHost, .hosted 0 fn⟩ : Function).Follows rules
  | _ => True

/-- The depth is zero, or below zero if hosts may close the session, and at depth zero the scratch
scope is empty. -/
structure Settled (closes : Prop) (s : Session) : Prop where
  depth : s.depth ≤ 0
  zero : ¬ closes → s.depth = 0
  scratch : s.depth = 0 → s.scratch.used = 0 ∧ s.scratch.kept = []

end Session

namespace Discipline

open Session

/-- Whatever happens between evaluations, the session is settled. -/
def settled (closes : Prop) : Discipline where
  holds s := s.Follows (.free closes) ∧ s.Settled closes
  allows _ _ := True
  refl _ := trivial
  trans _ _ := trivial

variable {closes : Prop}

theorem settled_evaluateTop (e : Expr) :
    (settled closes).Keeps (.free closes) (fun _ => True) (Evaluator.evaluateTop evaluate e) := by
  intro s hs
  obtain ⟨hfollows, hsettled⟩ := hs
  obtain ⟨⟨hfollows', -⟩, ⟨-, hdepth⟩, hends⟩ :=
    (keepingDepth_lawful (HostRules.free_lenient closes)).evaluate e s
      ⟨hfollows, fun _ _ _ _ => trivial⟩
  have hle : ((MacroScript.evaluate e).final s).depth ≤ 0 := by
    rcases hdepth with hdepth | ⟨-, hdepth⟩
    · rw [hdepth]
      exact hsettled.depth
    · exact hdepth
  unfold Evaluator.evaluateTop
  rw [final_atTop, result_atTop]
  split_ifs with hzero
  · exact ⟨⟨hfollows', Int.le_of_eq hzero, fun _ => hzero, fun _ => ⟨rfl, rfl⟩⟩, trivial, hends⟩
  · refine ⟨⟨hfollows', hle, fun hopen => ?_, fun h => absurd h hzero⟩, trivial, hends⟩
    rcases hdepth with hdepth | ⟨hcloses, -⟩
    · rw [hdepth]
      exact hsettled.zero hopen
    · exact absurd hcloses hopen

theorem settled_run (text : String) (sourceName : Option String) :
    (settled closes).Permits (run text sourceName) :=
  (run_keeps settled_evaluateTop (fun _ => trivial) text sourceName).imp fun _ _ => trivial

theorem settled_execute (text : String) (sourceName : Option String) :
    (settled closes).Permits (execute text sourceName) :=
  (execute_ends settled_evaluateTop (fun _ => trivial) text sourceName).imp fun _ _ => trivial

end Discipline

namespace Session

variable {closes : Prop} {s : Session}

theorem installBuiltins_settled (h : s.Settled closes) : s.installBuiltins.Settled closes := by
  unfold installBuiltins
  induction Builtin.all generalizing s with
  | nil => exact h
  | cons b builtins ih => exact ih ⟨h.depth, h.zero, h.scratch⟩

theorem final_setHostVar (s : Session) (name : String) (value : HostValue) :
    ∃ vars, (setHostVar name value).final s = { s with vars := vars } := by
  unfold setHostVar
  cases hvalue : value.toExpr with
  | ok e => exact ⟨s.vars.insert name (.expr e), rfl⟩
  | error fault => exact ⟨s.vars, rfl⟩

theorem Use.final_settled {use : Use} (huse : use.Follows (.free closes))
    (hs : (Discipline.settled closes).holds s) :
    (Discipline.settled closes).holds (use.final s) := by
  obtain ⟨hfollows, hsettled⟩ := hs
  cases use with
  | installBuiltins => exact ⟨hfollows.installBuiltins, installBuiltins_settled hsettled⟩
  | register name isHost fn =>
      exact ⟨hfollows.install huse, hsettled.depth, hsettled.zero, hsettled.scratch⟩
  | setVar name value =>
      obtain ⟨vars, hfinal⟩ := final_setHostVar s name value
      have hsettled' : (Discipline.settled closes).holds { s with vars := vars } :=
        ⟨hfollows, hsettled.depth, hsettled.zero, hsettled.scratch⟩
      rwa [← hfinal] at hsettled'
  | evaluate e => exact (Discipline.settled_evaluateTop e s ⟨hfollows, hsettled⟩).1
  | run text sourceName =>
      exact (Discipline.settled_run text sourceName s ⟨hfollows, hsettled⟩).1
  | execute text sourceName =>
      exact (Discipline.settled_execute text sourceName s ⟨hfollows, hsettled⟩).1
  | resetScratch => exact ⟨hfollows, hsettled.depth, hsettled.zero, fun _ => ⟨rfl, rfl⟩⟩
  | close => exact ⟨nofun, Int.le_refl 0, fun _ => rfl, fun _ => ⟨rfl, rfl⟩⟩

/-- A session that was fresh once is settled whenever no evaluation is in progress. -/
theorem after_settled (settings : Settings) {uses : List Use}
    (h : ∀ use ∈ uses, use.Follows (.free closes)) :
    ((fresh settings).after uses).Settled closes := by
  have hstart : (Discipline.settled closes).holds (fresh settings) :=
    ⟨.fresh settings, Int.le_refl 0, fun _ => rfl, fun _ => ⟨rfl, rfl⟩⟩
  have hall : ∀ (uses : List Use) (s : Session), (∀ use ∈ uses, use.Follows (.free closes)) →
      (Discipline.settled closes).holds s → (Discipline.settled closes).holds (s.after uses) := by
    intro uses
    induction uses with
    | nil => exact fun s _ hs => hs
    | cons use uses ih =>
        intro s huses hs
        rw [List.forall_mem_cons] at huses
        exact ih (use.final s) huses.2 (Use.final_settled huses.1 hs)
  exact (hall uses (fresh settings) h hstart).2

/-- A host function closes the session while an `echo` waits for its value. -/
def Use.closingWithin : List Use :=
  [.installBuiltins, .register "bye" true fun _ _ => .close (.done (.expr (.string "x"))),
    .run "echo(bye())" none]

theorem after_settled_closingWithin :
    let s := (fresh ⟨150, 200, none, none⟩).after Use.closingWithin
    s.Settled True ∧ s.depth = -2 ∧ s.scratch.used = 1 := by
  have huses : ∀ use ∈ Use.closingWithin, use.Follows (.free True) := by
    unfold Use.closingWithin
    simp only [List.forall_mem_cons]
    exact ⟨trivial, ⟨trivial, fun _ _ => ⟨trivial, trivial⟩⟩, trivial, nofun⟩
  refine ⟨after_settled _ huses, ?_, ?_⟩
  · cbv
  · cbv

end Session

end MacroScript
