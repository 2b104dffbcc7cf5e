import MacroScript.Proofs.Evaluation.Discipline
import Mathlib.Data.List.Forall2

/-!
# What the builtins respect

The builtins are put together from the evaluations of their arguments by a few
combinators. A relation between actions that these combinators respect therefore
holds between two calls of a builtin as soon as it holds between the evaluations
of their arguments. The builtins are gone through once, for all such relations.

The arguments of the two calls need not be the same. `let` and `define` look at
their arguments as trees, and what they do there is left to be shown.
-/
namespace MacroScript

/-- A relation between actions, for values of a kind in which they end. -/
structure ActionRelation where
  Relates {α : Type} (kind : α → Prop) (a b : Action Session α) : Prop

namespace ActionRelation

open Session

/-- The relation is respected by values, allowed faults and sequences. -/
structure Closed (R : ActionRelation) (rules : HostRules) : Prop where
  pure : ∀ {α : Type} {kind : α → Prop} {a : α}, kind a → R.Relates kind (pure a) (pure a)
  throw : ∀ {α : Type} {kind : α → Prop} {fault : Fault}, rules.fault fault →
    R.Relates kind (throw fault) (throw fault)
  bind : ∀ {α β : Type} {kind : α → Prop} {kind' : β → Prop} {a b : Action Session α}
    {f g : α → Action Session β}, R.Relates kind a b →
    (∀ v, kind v → R.Relates kind' (f v) (g v)) → R.Relates kind' (a >>= f) (b >>= g)

namespace Closed

variable {R : ActionRelation} {rules : HostRules} (h : R.Closed rules) {α β : Type}
  {kind : α → Prop}
include h

theorem ofExcept {e : Except Fault α} (he : rules.Answers kind e) :
    R.Relates kind (Action.ofExcept e) (Action.ofExcept e) := by
  cases e with
  | ok a => exact h.pure he
  | error fault => exact h.throw he

theorem andThen {a b : Action Session β} {f g : β → Action Session α}
    (hab : R.Relates (fun _ => True) a b) (hnext : ∀ v, R.Relates kind (f v) (g v)) :
    R.Relates kind (a >>= f) (b >>= g) :=
  h.bind hab fun v _ => hnext v

end Closed

/-- What has to be shown of a relation for the builtins to respect it. Within a buffer it may be a
different one. -/
structure Congruence (R : ActionRelation) (inside : BufferId → ActionRelation) (rules : HostRules)
    (trees : Expr → Expr → Prop) (fits : Builtin → List Expr → List Expr → Prop)
    (settable : String → Prop) : Prop where
  ownEnds : rules.AllowsOwnEnds
  closed : R.Closed rules
  closedInside : ∀ id, (inside id).Closed rules
  inner : ∀ {a b : Action Session HostValue} (id : BufferId), R.Relates rules.value a b →
    (inside id).Relates rules.value a b
  each : ∀ {b args args'}, fits b args args' → List.Forall₂ trees args args'
  target : ∀ {target target' e e'}, fits .letVar [target, e] [target', e'] →
    R.Relates settable (Action.ofExcept target.expectVar) (Action.ofExcept target'.expectVar)
  setValue : ∀ {name v}, settable name → rules.value v →
    R.Relates (fun _ => True) (setValue name v) (setValue name v)
  define : ∀ {target params body target' params' body'},
    fits .define [target, params, body] [target', params', body'] →
    R.Relates rules.value (Builtin.callDefine target params body)
      (Builtin.callDefine target' params' body')
  emit : ∀ text, R.Relates (fun _ => True) (emit text) (emit text)
  withBuffer : ∀ {α : Type} {kind : α → Prop} {a b : BufferId → Action Session α},
    (∀ id, (inside id).Relates kind (a id) (b id)) →
      R.Relates kind (Builtin.withBuffer a) (Builtin.withBuffer b)
  write : ∀ id text,
    (inside id).Relates (fun _ => True) (onScratch (Scope.write id text))
      (onScratch (Scope.write id text))
  contents : ∀ id,
    (inside id).Relates (fun _ => True) (onScratch (Scope.contents id))
      (onScratch (Scope.contents id))
  size : ∀ {α : Type} {kind : α → Prop} (id : BufferId) (use : Nat → Action Session α),
    (∀ n, (inside id).Relates kind (use n) (use n)) →
      (inside id).Relates kind (do use ((← get).scratch.buffer id).size)
        (do use ((← get).scratch.buffer id).size)

namespace Congruence

variable {R : ActionRelation} {inside : BufferId → ActionRelation} {rules : HostRules}
  {trees : Expr → Expr → Prop} {fits : Builtin → List Expr → List Expr → Prop}
  {settable : String → Prop} {ev ev' : Evaluator} {e e' : Expr} {args args' : List Expr}
  (T : R.Congruence inside rules trees fits settable)
  (hev : ∀ {e e'}, trees e e' → R.Relates rules.value (ev e) (ev' e'))
include T

theorem ofBool (flag : Bool) :
    R.Relates rules.value (pure (.expr (.ofBool flag))) (pure (.expr (.ofBool flag))) :=
  T.closed.pure (T.ownEnds.ofBool flag)

theorem void : R.Relates rules.value (pure (.expr .void)) (pure (.expr .void)) :=
  T.closed.pure (T.ownEnds.literal _ rfl)

include hev

theorem evalInt (h : trees e e') :
    R.Relates (fun _ => True) (Builtin.evalInt ev e) (Builtin.evalInt ev' e') :=
  T.closed.bind (hev h) fun _ hv => T.closed.ofExcept (T.ownEnds.answers_expectInt hv)

theorem evalBool (h : trees e e') :
    R.Relates (fun _ => True) (Builtin.evalBool ev e) (Builtin.evalBool ev' e') :=
  T.closed.bind (hev h) fun _ hv => T.closed.ofExcept (T.ownEnds.answers_expectBool hv)

theorem sumAll (h : List.Forall₂ trees args args') (total : UInt64) :
    R.Relates (fun _ => True) (Builtin.sumAll ev total args) (Builtin.sumAll ev' total args') := by
  induction h generalizing total with
  | nil => exact T.closed.pure trivial
  | cons harg _ ih =>
      exact T.closed.andThen (T.evalInt hev harg) fun value => ih (total + value)

theorem allTrue (h : List.Forall₂ trees args args') :
    R.Relates (fun _ => True) (Builtin.allTrue ev args) (Builtin.allTrue ev' args') := by
  induction h with
  | nil => exact T.closed.pure trivial
  | cons harg _ ih =>
      refine T.closed.andThen (T.evalBool hev harg) fun flag => ?_
      cases flag with
      | true => exact ih
      | false => exact T.closed.pure trivial

theorem evalAll (h : List.Forall₂ trees args args') :
    R.Relates (fun _ => True) (Builtin.evalAll ev args) (Builtin.evalAll ev' args') := by
  induction h with
  | nil => exact T.closed.pure trivial
  | cons harg _ ih => exact T.closed.bind (hev harg) fun _ _ => ih

theorem callCompare (test : UInt64 → UInt64 → Bool) {a b a' b' : Expr} (ha : trees a a')
    (hb : trees b b') :
    R.Relates rules.value (Builtin.callCompare ev test a b)
      (Builtin.callCompare ev' test a' b') := by
  refine T.closed.andThen (T.evalInt hev ha) fun left => ?_
  refine T.closed.andThen (T.evalInt hev hb) fun right => ?_
  exact T.ofBool _

theorem callEql {a b a' b' : Expr} (ha : trees a a') (hb : trees b b') :
    R.Relates rules.value (Builtin.callEql ev a b) (Builtin.callEql ev' a' b') := by
  refine T.closed.bind (hev ha) fun left hleft => ?_
  refine T.closed.bind (hev hb) fun right _ => ?_
  cases left with
  | expr left => cases right <;> exact T.ofBool _
  | _ => exact T.closed.throw (T.ownEnds.accessor _ hleft rfl _)

theorem callLet {target target' : Expr}
    (h : fits .letVar [target, e] [target', e']) :
    R.Relates rules.value (Builtin.callLet ev target e) (Builtin.callLet ev' target' e') := by
  have hargs := T.each h
  rw [List.forall₂_cons, List.forall₂_cons] at hargs
  refine T.closed.bind (T.target h) fun name hname => ?_
  refine T.closed.bind (hev hargs.2.1) fun v hv => ?_
  exact T.closed.andThen (T.setValue hname hv) fun _ => T.void

theorem printAll (h : List.Forall₂ trees args args') (id : BufferId) :
    (inside id).Relates (fun _ => True) (Builtin.printAll ev id args)
      (Builtin.printAll ev' id args') := by
  have hclosed := T.closedInside id
  induction h with
  | nil => exact hclosed.pure trivial
  | cons harg _ ih =>
      refine hclosed.bind (T.inner id (hev harg)) fun value _ => ?_
      cases hp : Builtin.printed? value with
      | some text => exact hclosed.andThen (T.write id text) fun _ => ih
      | none => exact hclosed.andThen (hclosed.throw (T.ownEnds.ownError _ rfl)) fun _ => ih

theorem callEcho (h : List.Forall₂ trees args args') :
    R.Relates rules.value (Builtin.callEcho ev args) (Builtin.callEcho ev' args') := by
  refine T.closed.andThen (T.withBuffer fun id => ?_) fun text => ?_
  · exact (T.closedInside id).andThen (T.printAll hev h id) fun _ => T.contents id
  · exact T.closed.andThen (T.emit text) fun _ => T.void

theorem repeatBody (h : trees e e') (id : BufferId) (count : Nat) :
    (inside id).Relates (fun _ => True) (Builtin.repeatBody ev e id count)
      (Builtin.repeatBody ev' e' id count) := by
  have hclosed := T.closedInside id
  induction count with
  | zero => exact hclosed.pure trivial
  | succ count ih =>
      refine hclosed.bind (T.inner id (hev h)) fun value _ => ?_
      dsimp only
      split
      · exact hclosed.andThen (T.write id _) fun _ => ih
      · exact ih

theorem callRepeat {body body' : Expr} (hbody : trees body body') (hcount : trees e e') :
    R.Relates rules.value (Builtin.callRepeat ev body e) (Builtin.callRepeat ev' body' e') := by
  refine T.closed.andThen (T.evalInt hev hcount) fun count => T.withBuffer fun id => ?_
  have hclosed := T.closedInside id
  let text (size : Nat) : Action Session HostValue := do
    if size = 0 then return .expr .void
    else return .expr (.string (← onScratch (Scope.contents id)))
  refine hclosed.andThen (T.repeatBody hev hbody id count.toNat) fun _ => T.size id text fun n => ?_
  unfold text
  split_ifs
  · exact hclosed.pure (T.ownEnds.literal _ rfl)
  · exact hclosed.andThen (T.contents id) fun text => hclosed.pure (T.ownEnds.literal _ rfl)

/-- Two calls of a builtin are related if the evaluations of their arguments are. -/
theorem callBuiltin (b : Builtin) (h : fits b args args') :
    R.Relates rules.value (b.call ev args) (b.call ev' args') := by
  have hargs := T.each h
  have harity : ∀ b, R.Relates rules.value (Builtin.arity b) (Builtin.arity b) :=
    fun b => T.closed.throw (T.ownEnds.ownError _ rfl)
  -- Apart from `do`, every builtin refuses the numbers of arguments that it is not made for.
  cases b
  case echo | log =>
    cases hargs with
    | nil => exact harity _
    | cons harg hrest => exact T.callEcho hev (.cons harg hrest)
  case ifThenElse =>
    obtain _ | ⟨hcond, _ | ⟨hyes, _ | ⟨hno, _ | _⟩⟩⟩ := hargs
    case cons.cons.cons.nil =>
      refine T.closed.andThen (T.evalBool hev hcond) fun flag => ?_
      cases flag with
      | true => exact hev hyes
      | false => exact hev hno
    all_goals exact harity _
  case eql =>
    obtain _ | ⟨ha, _ | ⟨hb, _ | _⟩⟩ := hargs
    case cons.cons.nil => exact T.callEql hev ha hb
    all_goals exact harity _
  case not =>
    obtain _ | ⟨hcond, _ | _⟩ := hargs
    case cons.nil => exact T.closed.andThen (T.evalBool hev hcond) fun flag => T.ofBool _
    all_goals exact harity _
  case and =>
    cases hargs with
    | nil => exact harity _
    | cons harg hrest =>
        exact T.closed.andThen (T.allTrue hev (.cons harg hrest)) fun flag => T.ofBool flag
  case gt | gte | ls | lse =>
    obtain _ | ⟨ha, _ | ⟨hb, _ | _⟩⟩ := hargs
    case cons.cons.nil => exact T.callCompare hev _ ha hb
    all_goals exact harity _
  case add =>
    cases hargs with
    | nil => exact harity _
    | cons harg hrest =>
        refine T.closed.andThen (T.sumAll hev (.cons harg hrest) 0) fun total => ?_
        exact T.closed.pure (T.ownEnds.literal _ rfl)
  case letVar =>
    obtain _ | ⟨htarget, _ | ⟨hvalue, _ | _⟩⟩ := hargs
    case cons.cons.nil => exact T.callLet hev h
    all_goals exact harity _
  case repeatTimes =>
    obtain _ | ⟨hbody, _ | ⟨hcount, _ | _⟩⟩ := hargs
    case cons.cons.nil => exact T.callRepeat hev hbody hcount
    all_goals exact harity _
  case doAll => exact T.closed.andThen (T.evalAll hev hargs) fun _ => T.void
  case define =>
    obtain _ | ⟨htarget, _ | ⟨hparams, _ | ⟨hbody, _ | _⟩⟩⟩ := hargs
    case cons.cons.cons.nil => exact T.define h
    all_goals exact harity _

end Congruence

end ActionRelation

end MacroScript
