import MacroScript.Proofs.Evaluation.HostRules
import MacroScript.Proofs.Session.Steps

/-!
# Disciplines

A discipline says which states are in order and what may become of a state. An
action keeps it if it leads from states in order to states in order, changes
them as allowed, and ends as the host rules say. What is to be shown of the
single steps of a session is listed once; from there it goes up through the
builtins, the calls and the host programs to every evaluation.

`echo` and `repeat` fill a buffer of their own while they evaluate. Within them
a discipline may be a weaker one, which does not look at that buffer.
-/
namespace MacroScript

/-- The expressions that are their own values. -/
def Expr.isLiteral : Expr → Bool
  | .void | .int _ | .string _ => true
  | .var _ | .call _ _ => false

@[simp] theorem Expr.isLiteral_ofBool (flag : Bool) : (Expr.ofBool flag).isLiteral = true := rfl

/-- The ends that a session itself gives to evaluations are among those that the rules allow. -/
structure HostRules.AllowsOwnEnds (rules : HostRules) : Prop where
  literal : ∀ e : Expr, e.isLiteral → rules.value (.expr e)
  ownError : ∀ error, (Fault.eval error).reason? = none → rules.fault (.eval error)
  accessor : ∀ v, rules.value v → v.asExpr? = none →
    ∀ accessor, rules.fault (.foreign (.noAccessor v.typeName accessor))
  notBindable : ∀ v, rules.value v → v.asExpr? = none →
    ∀ name, rules.fault (.foreign (.notBindable name v))
  guarded : ∀ name fault, rules.fault fault → rules.fault (Function.guardedFault name fault)

namespace HostRules.AllowsOwnEnds

variable {rules : HostRules} (h : rules.AllowsOwnEnds)
include h

theorem answers_expectInt {v : HostValue} (hv : rules.value v) :
    rules.Answers (fun _ => True) v.expectInt := by
  cases v with
  | expr e => cases e <;> first | trivial | exact h.ownError _ rfl
  | _ => exact h.accessor _ hv rfl _

theorem answers_expectBool {v : HostValue} (hv : rules.value v) :
    rules.Answers (fun _ => True) v.expectBool := by
  cases v with
  | expr e =>
      cases e with
      | string text =>
          simp only [HostValue.expectBool, HostValue.access, Expr.expectBool, Expr.expectString]
          split_ifs
          · trivial
          · trivial
          · exact h.ownError _ rfl
      | _ => exact h.ownError _ rfl
  | _ => exact h.accessor _ hv rfl _

theorem ofBool (flag : Bool) : rules.value (.expr (.ofBool flag)) :=
  h.literal _ (Expr.isLiteral_ofBool flag)

theorem answers_parameterNames (seen : List String) (params : List Expr) :
    rules.Answers (fun _ => True) (Builtin.parameterNames seen params) := by
  induction params generalizing seen with
  | nil => trivial
  | cons param params ih =>
      cases param with
      | var name =>
          simp only [Builtin.parameterNames]
          split_ifs
          · exact h.ownError _ rfl
          · exact ih _
      | _ => exact h.ownError _ rfl

theorem answers_definition (target params body : Expr) :
    rules.Answers (fun _ => True) (Builtin.definition target params body) := by
  cases target with
  | var name =>
      have hformals : rules.Answers (fun _ => True) (Builtin.formals params) := by
        unfold Builtin.formals
        split
        · exact h.answers_parameterNames [] _
        · exact h.ownError _ rfl
      unfold Builtin.definition
      cases hf : Builtin.formals params with
      | ok formals => trivial
      | error fault => exact (hf ▸ hformals : rules.Answers (fun _ => True) (.error fault))
  | _ => exact h.ownError _ rfl

theorem answers_seen {e : Except Fault HostValue} (fn : Function)
    (he : rules.Answers rules.value e) : rules.Answers rules.value (fn.seen e) := by
  unfold Function.seen
  cases fn.isHost with
  | false => cases e <;> exact he
  | true =>
      cases e with
      | error fault => exact h.guarded _ _ he
      | ok value =>
          cases value with
          | expr e => exact he
          | absent => exact h.literal _ rfl
          | _ => exact h.ownError _ rfl

end HostRules.AllowsOwnEnds

/-- The states in order, and what may become of them. -/
structure Discipline where
  holds : Session → Prop
  allows : Session → Session → Prop
  refl : ∀ s, allows s s
  trans : ∀ {s t u}, allows s t → allows t u → allows s u

namespace Discipline

open MacroScript.Action Session

variable {α β : Type} {D : Discipline} {rules : HostRules}

/-- The action keeps the discipline and ends as described. -/
def Ends (D : Discipline) (ends : Except Fault α → Prop) (action : Action Session α) : Prop :=
  ∀ s, D.holds s → D.holds (action.final s) ∧ D.allows s (action.final s) ∧ ends (action.result s)

/-- The action keeps the discipline, however it ends. -/
def Permits (D : Discipline) (action : Action Session α) : Prop := D.Ends (fun _ => True) action

/-- The action keeps the discipline and ends in a value of a kind, or in a fault of the rules. -/
def Keeps (D : Discipline) (rules : HostRules) (kind : α → Prop) (action : Action Session α) :
    Prop :=
  D.Ends (rules.Answers kind) action

def Evaluates (D : Discipline) (rules : HostRules) (ev : Evaluator) : Prop :=
  ∀ e, D.Keeps rules rules.value (ev e)

section Combinators

variable {ends final : Except Fault α → Prop} {kind : α → Prop} {kind' : β → Prop}
  {action : Action Session α} {next : α → Action Session β} {cleanup : Action Session Unit}

theorem Ends.imp (h : D.Ends ends action) (himp : ∀ e, ends e → final e) : D.Ends final action :=
  fun s hs => ⟨(h s hs).1, (h s hs).2.1, himp _ (h s hs).2.2⟩

theorem Ends.pure {a : α} (h : ends (.ok a)) : D.Ends ends (pure a) :=
  fun s hs => ⟨hs, D.refl s, h⟩

theorem Ends.throw {fault : Fault} (h : ends (.error fault)) : D.Ends ends (throw fault) :=
  fun s hs => ⟨hs, D.refl s, h⟩

theorem Ends.ofExcept {e : Except Fault α} (h : ends e) : D.Ends ends (Action.ofExcept e) := by
  intro s hs
  rw [final_ofExcept, result_ofExcept]
  exact ⟨hs, D.refl s, h⟩

theorem Ends.bind {ends' : Except Fault β → Prop} (h : D.Ends ends action)
    (hok : ∀ a, ends (.ok a) → D.Ends ends' (next a))
    (herror : ∀ fault, ends (.error fault) → ends' (.error fault)) :
    D.Ends ends' (action >>= next) := by
  intro s hs
  obtain ⟨hholds, hallows, hends⟩ := h s hs
  cases hr : action.result s with
  | ok a =>
      obtain ⟨hholds', hallows', hends'⟩ := hok a (hr ▸ hends) _ hholds
      rw [final_bind_ok hr, result_bind_ok hr]
      exact ⟨hholds', D.trans hallows hallows', hends'⟩
  | error fault =>
      rw [final_bind_error hr, result_bind_error hr]
      exact ⟨hholds, hallows, herror fault (hr ▸ hends)⟩

theorem Ends.attempt_bind {next : Except Fault α → Action Session β}
    {ends' : Except Fault β → Prop} (h : D.Ends ends action)
    (hnext : ∀ e, ends e → D.Ends ends' (next e)) : D.Ends ends' (action.attempt >>= next) := by
  intro s hs
  obtain ⟨hholds, hallows, hends⟩ := h s hs
  obtain ⟨hholds', hallows', hends'⟩ := hnext _ hends _ hholds
  rw [final_bind_ok result_attempt, result_bind_ok result_attempt, final_attempt]
  exact ⟨hholds', D.trans hallows hallows', hends'⟩

theorem Ends.ensuring (h : D.Ends ends action) (hc : D.Keeps rules (fun _ => True) cleanup)
    (herror : ∀ fault, rules.fault fault → ends (.error fault)) :
    D.Ends ends (action.ensuring cleanup) := by
  intro s hs
  obtain ⟨hholds, hallows, hends⟩ := h s hs
  obtain ⟨hholds', hallows', hends'⟩ := hc _ hholds
  rw [final_ensuring]
  refine ⟨hholds', D.trans hallows hallows', ?_⟩
  cases hr : cleanup.result (action.final s) with
  | ok _ => rwa [result_ensuring_ok hr]
  | error fault =>
      rw [hr] at hends'
      rw [result_ensuring_error hr]
      exact herror fault hends'

theorem Permits.andEnds (h : D.Permits action) (hends : ∀ s, ends (action.result s)) :
    D.Ends ends action :=
  fun s hs => ⟨(h s hs).1, (h s hs).2.1, hends s⟩

theorem Permits.of_final
    (h : ∀ s, D.holds s → D.holds (action.final s) ∧ D.allows s (action.final s)) :
    D.Permits action :=
  fun s hs => ⟨(h s hs).1, (h s hs).2, trivial⟩

theorem Keeps.pure {a : α} (h : kind a) : D.Keeps rules kind (pure a) := Ends.pure h

theorem Keeps.throw {fault : Fault} (h : rules.fault fault) :
    D.Keeps rules kind (throw fault) := Ends.throw h

theorem Keeps.bind (h : D.Keeps rules kind action)
    (hnext : ∀ a, kind a → D.Keeps rules kind' (next a)) :
    D.Keeps rules kind' (action >>= next) :=
  Ends.bind h hnext fun _ hfault => hfault

theorem Keeps.andThen (h : D.Keeps rules (fun _ => True) action)
    (hnext : ∀ a, D.Keeps rules kind' (next a)) : D.Keeps rules kind' (action >>= next) :=
  h.bind fun a _ => hnext a

theorem Keeps.ensuring (h : D.Keeps rules kind action)
    (hc : D.Keeps rules (fun _ => True) cleanup) :
    D.Keeps rules kind (action.ensuring cleanup) :=
  Ends.ensuring h hc fun _ hfault => hfault

theorem Ends.get_bind {use : Session → Action Session α} (h : ∀ s, D.Ends ends (use s)) :
    D.Ends ends ((get : Action Session Session) >>= use) :=
  fun s hs => h s s hs

theorem Keeps.get_bind {use : Session → Action Session α} (h : ∀ s, D.Keeps rules kind (use s)) :
    D.Keeps rules kind ((get : Action Session Session) >>= use) :=
  Ends.get_bind h

end Combinators

theorem Permits.bindVar {name : String} {v : HostValue} (h : D.Permits (Session.bindVar name v)) :
    D.Ends (fun e => e = .ok () ∨ e = .error (.eval (.shadowing name))) (Session.bindVar name v) :=
  h.andEnds fun _ => result_bindVar

theorem Permits.unbindVar {name : String} (h : D.Permits (Session.unbindVar name)) :
    D.Ends (fun e => e = .ok () ∨ e = .error (.foreign (.bindingVanished name)))
      (Session.unbindVar name) :=
  h.andEnds fun _ => result_unbindVar

section AtTop

variable {action : Action Session α} {s : Session}

theorem atTop_reset_eq : (do if (← get).depth = 0 then resetScratch : Action Session Unit) s =
    .ok () (if s.depth = 0 then { s with scratch := s.scratch.reset } else s) := by
  rw [Action.get_bind]
  split_ifs <;> rfl

theorem result_atTop : (atTop action).result s = action.result s :=
  result_ensuring_ok (eq_ok_iff.mp atTop_reset_eq).1

theorem final_atTop : (atTop action).final s =
    if (action.final s).depth = 0 then
      { action.final s with scratch := (action.final s).scratch.reset }
    else action.final s :=
  final_ensuring.trans (eq_ok_iff.mp atTop_reset_eq).2

theorem Ends.atTop {ends : Except Fault α → Prop} (h : D.Ends ends action)
    (hreset : ∀ s, D.holds s → s.depth = 0 → D.holds { s with scratch := s.scratch.reset } ∧
      D.allows s { s with scratch := s.scratch.reset }) :
    D.Ends ends (atTop action) := by
  intro s hs
  obtain ⟨hholds, hallows, hends⟩ := h s hs
  rw [result_atTop, final_atTop]
  split_ifs with hdepth
  · obtain ⟨hholds', hallows'⟩ := hreset _ hholds hdepth
    exact ⟨hholds', D.trans hallows hallows', hends⟩
  · exact ⟨hholds, hallows, hends⟩

end AtTop

/-- A definition keeps the discipline if both of its steps do, the one that keeps the function and
the one that installs it. -/
theorem define_of_steps (h : rules.AllowsOwnEnds)
    (hkeep : ∀ fn : DefinedFn,
      D.Keeps rules (fun _ => True) (onArena (Scope.keep (.defined fn) fn.size)))
    (hinstall : ∀ fn : DefinedFn, D.Permits (modify fun s => s.install fn.name (.ofDefined fn)))
    (target params body : Expr) :
    D.Keeps rules rules.value (Builtin.callDefine target params body) := by
  refine .andThen (.ofExcept (h.answers_definition target params body)) fun fn => ?_
  refine .andThen (hkeep fn) fun _ => ?_
  refine .andThen ((hinstall fn).andEnds fun _ => trivial) fun _ => ?_
  exact .pure (h.literal _ rfl)

/-- What has to be shown of the steps of a session. -/
structure Lawful (D : Discipline) (rules : HostRules) (inside : BufferId → Discipline) : Prop where
  literal : ∀ e : Expr, e.isLiteral → rules.value (.expr e)
  ownError : ∀ error, (Fault.eval error).reason? = none → rules.fault (.eval error)
  malformed : rules.atTop → ∀ error, rules.fault (.malformed error)
  accessor : ∀ v, rules.value v → v.asExpr? = none →
    ∀ accessor, rules.fault (.foreign (.noAccessor v.typeName accessor))
  notBindable : ∀ v, rules.value v → v.asExpr? = none →
    ∀ name, rules.fault (.foreign (.notBindable name v))
  guarded : ∀ name fault, rules.fault fault → rules.fault (Function.guardedFault name fault)
  bound : ∀ s, D.holds s → ∀ name v, s.vars.find? name = some v → v.asExpr? = none → rules.value v
  follows : ∀ s, D.holds s → s.Follows rules
  nested : ∀ action : Action Session HostValue, D.Keeps rules rules.value action →
    D.Keeps rules rules.value (do enter; action.ensuring leave)
  /-- Hosts may set variables to any expression, a program only to what it has evaluated. -/
  setVar : ∀ name e, rules.binds ∨ rules.value (.expr e) → D.Permits (setVar name (.expr e))
  define : ∀ target params body, D.Keeps rules rules.value (Builtin.callDefine target params body)
  emit : ∀ text, D.Permits (emit text)
  countCall : ∀ registration, D.Permits (countCall registration)
  callDefined : ∀ ev, D.Evaluates rules ev → ∀ fn args,
    D.Keeps rules rules.value (DefinedFn.call ev fn args)
  withBuffer : ∀ {α : Type} (kind : α → Prop) (action : BufferId → Action Session α),
    (∀ id, (inside id).Keeps rules kind (action id)) →
      D.Keeps rules kind (Builtin.withBuffer action)
  evaluatesInside : ∀ ev, D.Evaluates rules ev → ∀ id, (inside id).Evaluates rules ev
  write : ∀ id text, (inside id).Keeps rules (fun _ => True) (onScratch (Scope.write id text))
  contents : ∀ id, (inside id).Keeps rules (fun _ => True) (onScratch (Scope.contents id))
  top : rules.atTop → ∀ action : Action Session HostValue, D.Keeps rules rules.value action →
    D.Keeps rules rules.value (atTop action)
  resetScratch : rules.resets → D.Permits resetScratch
  close : rules.closes → D.Permits close
  bindVar : rules.binds → ∀ name e, D.Permits (bindVar name (.expr e))
  unbindVar : rules.unbinds → ∀ name, D.Permits (unbindVar name)

theorem Lawful.ownEnds {inside : BufferId → Discipline} (L : D.Lawful rules inside) :
    rules.AllowsOwnEnds :=
  ⟨L.literal, L.ownError, L.accessor, L.notBindable, L.guarded⟩

end Discipline

end MacroScript
