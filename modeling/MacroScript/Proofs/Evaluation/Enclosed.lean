import MacroScript.Proofs.Evaluation.Bindings
import MacroScript.Proofs.Scope.Restored
import Mathlib.Tactic.ByContra

/-!
# The evaluations inside an evaluation

An evaluation does one step and leaves it to nested evaluations to do the rest.
Which ones it asks for is read off the step as a function of the evaluator: a
nested evaluation is asked for if another answer to it, and to nothing else,
would make a difference. The evaluations enclosed in an evaluation are those that
are asked for, those that these ask for, and so on.

The main statement is about disciplines that go down into what is begun. If an
evaluation begins in order, then so do all evaluations that it encloses.
-/
namespace MacroScript

open MacroScript.Action Session

section Congruence

variable {α : Type} {s : Session}

theorem Action.ensuring_congr {σ : Type} {a b : Action σ α} {cleanup : Action σ Unit} {s : σ}
    (h : a s = b s) : a.ensuring cleanup s = b.ensuring cleanup s := by
  unfold ensuring
  rw [h]

theorem Session.nested_congr {a b : Action Session HostValue}
    (h : s.depth < s.maxDepth →
      a { s with depth := s.depth + 1 } = b { s with depth := s.depth + 1 }) :
    (do enter; a.ensuring leave : Action Session HostValue) s =
      (do enter; b.ensuring leave : Action Session HostValue) s := by
  by_cases hroom : s.depth < s.maxDepth
  · obtain ⟨hr, hf⟩ := eq_ok_iff.mp (enter_of_room hroom)
    rw [bind_ok hr, bind_ok hr, hf]
    exact ensuring_congr (h hroom)
  · obtain ⟨hr, hf⟩ := eq_error_iff.mp (enter_of_no_room (Int.not_lt.mp hroom))
    rw [bind_error hr, bind_error hr]

theorem DefinedFn.call_congr {ev ev' : Evaluator} {fn : DefinedFn} {args : List Expr}
    (h : ∀ after, Bound s.vars (fn.formals.zip args) fn.formals none after →
      ev fn.body { s with vars := after } = ev' fn.body { s with vars := after }) :
    fn.call ev args s = fn.call ev' args s := by
  by_cases haccepts : fn.Accepts args s.vars
  · obtain ⟨after, hbound, hcall⟩ := call_accepted haccepts
    rw [hcall ev s rfl, hcall ev' s rfl]
    exact ensuring_congr (h after hbound)
  · obtain ⟨fault, -, hcall⟩ := call_refused haccepts
    rw [hcall ev s rfl, hcall ev' s rfl]

theorem Builtin.withBuffer_congr {a b : BufferId → Action Session α}
    (h : a s.scratch.buffers.length { s with scratch := s.scratch.opened } =
      b s.scratch.buffers.length { s with scratch := s.scratch.opened }) :
    withBuffer a s = withBuffer b s := by
  unfold withBuffer
  by_cases hroom : s.scratch.allows s.scratch.used = true
  · obtain ⟨hr, hf⟩ := eq_ok_iff.mp (onScratch_ok (Scope.newBuffer_of_allows hroom))
    rw [bind_ok hr, bind_ok hr, hf]
    exact ensuring_congr h
  · obtain ⟨hr, hf⟩ := eq_error_iff.mp (onScratch_error (Scope.newBuffer_of_not_allows hroom))
    rw [bind_error hr, bind_error hr]

end Congruence

namespace Evaluator

/-- In the state `s` the action asks for the evaluation of `e` in the state `t`: with another answer
to that alone it would not end as it does. -/
def Consults (action : Evaluator → Action Session HostValue) (ev : Evaluator) (s : Session)
    (e : Expr) (t : Session) : Prop :=
  ∃ ev' : Evaluator, (∀ e' t', (e', t') ≠ (e, t) → ev' e' t' = ev e' t') ∧ action ev' s ≠ action ev s

variable {action : Evaluator → Action Session HostValue} {ev : Evaluator} {s t : Session} {e : Expr}

open Classical in
/-- An action asks for an evaluation if it would not end as it does, should that one fail. -/
theorem consults_of_fault (fault : Fault) (hends : (action ev).result s ≠ .error fault)
    (h : ∀ ev' : Evaluator, ev' e t = .error fault t →
      (∀ e' t', (e', t') ≠ (e, t) → ev' e' t' = ev e' t') → (action ev').result s = .error fault) :
    Consults action ev s e t := by
  let failing : Evaluator := fun e' t' => if (e', t') = (e, t) then .error fault t' else ev e' t'
  have helsewhere : ∀ e' t', (e', t') ≠ (e, t) → failing e' t' = ev e' t' :=
    fun e' t' h => if_neg h
  refine ⟨failing, helsewhere, fun hsame => hends ?_⟩
  have hfails := h failing (if_pos rfl) helsewhere
  unfold result at hfails ⊢
  rwa [hsame] at hfails

end Evaluator

/-- An evaluation: the stock of levels, what is evaluated, and the state in which that begins. -/
structure Evaluation where
  levels : Nat
  expr : Expr
  start : Session

namespace Evaluation

def final (E : Evaluation) : Session := (evaluateWith E.levels E.expr).final E.start

/-- The evaluations that go on in the course of an evaluation, at any level below it. -/
inductive Encloses : Evaluation → Evaluation → Prop
  | itself (E : Evaluation) : Encloses E E
  | nested {levels : Nat} {e e' : Expr} {s t : Session} {F : Evaluation} :
      s.depth < s.maxDepth →
      Evaluator.Consults (fun ev => evaluateStep ev e) (evaluateWith levels)
        { s with depth := s.depth + 1 } e' t →
      Encloses ⟨levels, e', t⟩ F →
      Encloses ⟨levels + 1, e, s⟩ F

theorem Encloses.trans {E F G : Evaluation} (h : E.Encloses F) (h' : F.Encloses G) :
    E.Encloses G := by
  induction h with
  | itself E => exact h'
  | nested hroom hconsults _ ih => exact .nested hroom hconsults (ih h')

end Evaluation

def Session.evaluation (s : Session) (e : Expr) : Evaluation := ⟨s.levels, e, s⟩

namespace Coupling

/-- Runs under the same limits are compared, and nothing cuts them short. -/
def exact : Coupling where
  admits _ := True
  limits := id
  cut _ := False
  ahead _ _ := True

theorem exact_lawful : exact.Lawful where
  covers _ _ := .inl rfl
  refl _ := trivial
  trans _ _ := trivial
  guarded _ _ h := h.elim

variable {α : Type} {a b : Action Session α} {s : Session}

theorem exact_other (s : Session) : exact.other s = s := s.withLimits_self

theorem exact_meet_iff : exact.Meet a b s ↔ a s = b s := by
  unfold Meet Agree Cut
  rw [exact_other, exact_other]
  constructor
  · rintro (⟨hr, hf⟩ | ⟨fault, hcut, -⟩)
    · exact apply_eq hr.symm hf.symm
    · exact hcut.elim
  · intro h
    left
    unfold result final
    rw [h]
    exact ⟨rfl, rfl⟩

end Coupling

namespace Discipline

variable {α : Type} {D : Discipline} {rules : HostRules} {inside : BufferId → Discipline}

/-- The states in order include those in which an evaluation has entered, the body of a defined
function begins and a new buffer is there to be filled. -/
structure Descends (D : Discipline) (inside : BufferId → Discipline) : Prop where
  entered : ∀ s, D.holds s → s.depth < s.maxDepth → D.holds { s with depth := s.depth + 1 }
  bound : ∀ s pairs names after, D.holds s → DefinedFn.Bound s.vars pairs names none after →
    D.holds { s with vars := after }
  opened : ∀ s, D.holds s →
    (inside s.scratch.buffers.length).holds { s with scratch := s.scratch.opened }
  outside : ∀ id s, (inside id).holds s → D.holds s

theorem Ends.congr {ends : Except Fault α → Prop} {a b : Action Session α} (h : D.Ends ends a)
    (hab : ∀ s, D.holds s → a s = b s) : D.Ends ends b := by
  intro s hs
  have hkept := h s hs
  unfold final result at hkept ⊢
  rwa [hab s hs] at hkept

theorem exact_suits (D : Discipline) : Coupling.exact.Suits D where
  holds s _ hs := by rwa [Coupling.exact_other]
  admits _ _ _ _ := trivial
  onward _ _ _ _ _ := trivial

namespace Lawful

variable (L : D.Lawful rules inside) (K : D.Descends inside)
include L K

/-- Two evaluators that agree on the states in order lead to the same steps. -/
theorem exact_lifts : Coupling.exact.Lifts D rules inside where
  coupling := Coupling.exact_lawful
  discipline := L
  suits := exact_suits D
  suitsInside id := exact_suits (inside id)
  nested a b h := by
    refine ⟨L.nested a h.left, L.nested b h.right, fun s hs _ => ?_⟩
    rw [Coupling.exact_meet_iff]
    exact nested_congr fun hroom =>
      Coupling.exact_meet_iff.mp (h.meet _ (K.entered s hs hroom) trivial)
  callDefined ev ev' h fn args := by
    refine ⟨L.callDefined ev h.left fn args, L.callDefined ev' h.right fn args, fun s hs _ => ?_⟩
    rw [Coupling.exact_meet_iff]
    exact DefinedFn.call_congr fun after hbound =>
      Coupling.exact_meet_iff.mp ((h fn.body).meet _ (K.bound s _ _ after hs hbound) trivial)
  withBuffer kind a b h := by
    refine ⟨L.withBuffer kind a fun id => (h id).left, L.withBuffer kind b fun id => (h id).right,
      fun s hs _ => ?_⟩
    rw [Coupling.exact_meet_iff]
    exact Builtin.withBuffer_congr (Coupling.exact_meet_iff.mp ((h _).meet _ (K.opened s hs) trivial))
  matchesInside ev ev' h id e := by
    refine ⟨L.evaluatesInside ev h.left id e, L.evaluatesInside ev' h.right id e, fun s hs _ => ?_⟩
    exact (h e).meet s (K.outside id s hs) trivial
  top htop a b h := by
    refine ⟨L.top htop a h.left, L.top htop b h.right, fun s hs _ => ?_⟩
    rw [Coupling.exact_meet_iff]
    exact ensuring_congr (Coupling.exact_meet_iff.mp (h.meet s hs trivial))
  hosts _ _ _ := rfl

/-- A step that begins in order does the same with two evaluators that do the same in order. -/
theorem evaluateStep_congr {ev ev' : Evaluator} {s : Session} (hev : D.Evaluates rules ev)
    (h : ∀ e s, D.holds s → ev e s = ev' e s) (hs : D.holds s) (e : Expr) :
    MacroScript.evaluateStep ev e s = MacroScript.evaluateStep ev' e s := by
  have hmatches : Coupling.exact.Matches D rules ev ev' := by
    intro e
    refine ⟨hev e, (hev e).congr (h e), fun s hs _ => ?_⟩
    exact Coupling.exact_meet_iff.mpr (h e s hs)
  have hstep := (L.exact_lifts K).evaluateStep hmatches fun _ _ _ _ hcut => hcut
  exact Coupling.exact_meet_iff.mp ((hstep e).meet s hs trivial)

/-- A step that begins in order asks for evaluations that begin in order only. -/
theorem holds_of_consults {ev : Evaluator} {e e' : Expr} {s t : Session}
    (hev : D.Evaluates rules ev) (hs : D.holds s)
    (h : Evaluator.Consults (fun ev => MacroScript.evaluateStep ev e) ev s e' t) : D.holds t := by
  by_contra ht
  obtain ⟨ev', hsame, hne⟩ := h
  -- The two evaluators differ in a state that is not in order, which is never come to.
  have hagree : ∀ e u, D.holds u → ev e u = ev' e u := by
    intro e u hu
    refine (hsame e u fun heq => ht ?_).symm
    cases heq
    exact hu
  exact hne (L.evaluateStep_congr K hev hagree hs e).symm

theorem holds_of_encloses {E F : Evaluation} (h : E.Encloses F) (hE : D.holds E.start) :
    D.holds F.start := by
  induction h with
  | itself E => exact hE
  | nested hroom hconsults _ ih =>
      exact ih (L.holds_of_consults K (L.evaluateWith _) (K.entered _ hE hroom) hconsults)

theorem eq_or_holds_of_encloses {E F : Evaluation} (h : E.Encloses F)
    (hE : E.start.depth < E.start.maxDepth →
      D.holds { E.start with depth := E.start.depth + 1 }) : F = E ∨ D.holds F.start := by
  cases h with
  | itself E => exact .inl rfl
  | nested hroom hconsults hnested =>
      have hbegun := L.holds_of_consults K (L.evaluateWith _) (hE hroom) hconsults
      exact .inr (L.holds_of_encloses K hnested hbegun)

end Lawful

end Discipline

end MacroScript
