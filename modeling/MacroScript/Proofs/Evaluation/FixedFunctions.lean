import MacroScript.Proofs.Evaluation.Definitions
import MacroScript.Proofs.Evaluation.Substitution

/-!
# Evaluations that make no function

Without functions of the host, the table of functions changes by calls of the
builtin for definitions only. A tree without such a call evaluates nothing but
itself, what variables are bound to, and bodies of functions; where there is no
such call in any of them, there is none in what they come to, and the functions
stay what they are. This is shown of a run side by side with itself.
-/
namespace MacroScript

namespace Session

/-- No call of the builtin for definitions stands in the tree. -/
def Undefining (s : Session) (e : Expr) : Prop :=
  e.Every fun sub => ∀ name args, sub = .call name args → ¬ s.NamesBuiltin .define name

variable {s : Session} {name : String} {args : List Expr} {e : Expr}

theorem undefining_call_iff : s.Undefining (.call name args) ↔
    ¬ s.NamesBuiltin .define name ∧ ∀ e ∈ args, s.Undefining e := by
  unfold Undefining
  rw [Expr.every_call_iff]
  refine and_congr_left fun _ => ⟨fun h => h name args rfl, ?_⟩
  rintro h _ _ ⟨⟩
  exact h

theorem undefining_of_isLiteral (h : e.isLiteral = true) : s.Undefining e := by
  cases e with
  | void | int _ | string _ => exact nofun
  | _ => cases h

end Session

open MacroScript.Action Session

/-- A run that makes no function, and the same run. -/
def undefining (origin : Session) : Simulation where
  states s s' := s.Follows .selfContained ∧ s.Trees origin.Undefining ∧
    s.functions = origin.functions ∧ s' = s
  trees e e' := origin.Undefining e ∧ e' = e
  names _ := True
  fits b args args' :=
    List.Forall₂ (fun e e' => origin.Undefining e ∧ e' = e) args args' ∧ b ≠ .define
  faults := Eq
  cut := False

section Undefining

variable {origin s : Session} {e e' : Expr}

theorem undefining_inStep : (undefining origin).InStep where
  same := .inr fun _ => rfl
  maxDepth h := by rw [h.2.2.2]
  depth h := by rw [h.2.2.2]
  emitted h := by rw [h.2.2.2]
  withDepth := by
    rintro s _ depth ⟨hf, ⟨hbound, hbodies⟩, hsame, rfl⟩
    exact ⟨hf, ⟨hbound, hbodies⟩, hsame, rfl⟩
  withEmitted := by
    rintro s _ emitted ⟨hf, ⟨hbound, hbodies⟩, hsame, rfl⟩
    exact ⟨hf, ⟨hbound, hbodies⟩, hsame, rfl⟩

theorem undefining_scratch : (undefining origin).Scratch := by
  refine .of_same (.inr fun _ => rfl) (fun _ => trivial) (fun h => by rw [h.2.2.2]) ?_
  rintro s _ scratch ⟨hf, ⟨hbound, hbodies⟩, hsame, rfl⟩
  exact ⟨hf, ⟨hbound, hbodies⟩, hsame, rfl⟩

theorem undefining_lawful : (undefining origin).Lawful where
  same := .inr fun _ => rfl
  guarded _ _ _ h := congrArg _ h
  literal h := ⟨undefining_of_isLiteral h, rfl⟩
  enter := undefining_inStep.enter
  leave := undefining_inStep.leave
  emit := undefining_inStep.emit
  scratch := undefining_scratch
  contains _ h := by rw [h.2.2.2]
  keeps h := h.elim
  insert := by
    rintro s _ name e _ - - ⟨he, rfl⟩ ⟨hf, htrees, hsame, rfl⟩
    exact ⟨hf, htrees.insert he, hsame, rfl⟩
  erase := by
    rintro s _ name - - ⟨hf, htrees, hsame, rfl⟩
    exact ⟨hf, htrees.erase, hsame, rfl⟩
  lookupVar := by
    rintro _ s name - ⟨-, htrees, -, rfl⟩
    exact Simulation.bound_self fun e hfind => ⟨htrees.bound name e hfind, rfl⟩
  lookupFunction := by
    rintro _ s name args _ ⟨hcall, heq⟩ ⟨hf, htrees, hsame, rfl⟩
    cases heq
    obtain ⟨hname, hargs⟩ := undefining_call_iff.mp hcall
    cases hfind : s.functions.find? name with
    | none => exact .none
    | some fn =>
        refine .some ⟨rfl, rfl, Simulation.callables_self ?_ ?_ (hf name fn hfind).hosts⟩
        · intro b hbody
          refine ⟨List.forall₂_same.mpr fun e he => ⟨hargs e he, rfl⟩, ?_⟩
          rintro rfl
          exact hname ⟨fn, hsame ▸ hfind, hbody⟩
        · exact fun d hbody => ⟨fun _ _ => trivial, htrees.bodies name fn d hfind hbody, rfl⟩
  each h := h.1
  target := by
    rintro _ target _ _ ⟨htrees, -⟩
    simp only [List.forall₂_cons] at htrees
    obtain ⟨⟨-, rfl⟩, -⟩ := htrees
    exact Simulation.relates_expectVar (.inr fun _ => rfl) fun _ _ => trivial
  define h := absurd rfl h.2

theorem undefining_heads (h : (undefining origin).trees e e') :
    (undefining origin).Heads e e' := by
  obtain ⟨he, rfl⟩ := h
  refine .of_self ?_
  rintro name args rfl arg harg
  exact ⟨(undefining_call_iff.mp he).2 arg harg, rfl⟩

end Undefining

/-- Where no call of the builtin for definitions can be come upon, an evaluation leaves the functions
as they are, and no such call is bound. -/
theorem Session.functions_kept {s : Session} {e : Expr} (hf : s.Follows .selfContained)
    (htrees : s.Trees s.Undefining) (he : s.Undefining e) :
    ((evaluate e).final s).functions = s.functions ∧ ((evaluate e).final s).Trees s.Undefining := by
  have L := @undefining_lawful s
  have hmeets := L.evaluate undefining_inStep
    (fun hev _ _ h => L.evaluateStep hev h (undefining_heads h)) ⟨he, rfl⟩ s s ⟨hf, htrees, rfl, rfl⟩
  obtain ⟨hcut, -⟩ | ⟨-, -, htrees', hsame, -⟩ := hmeets
  · exact hcut.elim
  · exact ⟨hsame, htrees'⟩

end MacroScript
