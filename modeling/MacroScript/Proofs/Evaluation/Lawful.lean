import MacroScript.Proofs.Evaluation.Traversal

/-!
# Evaluations keep a lawful discipline

A single run is a comparison in which no limits are compared. So the traversal
of evaluations side by side says in particular that each run keeps its
discipline, whatever the hosts do with the faults they see.
-/
namespace MacroScript

namespace Coupling

/-- No runs are compared. -/
def alone : Coupling where
  admits _ := False
  limits := id
  cut _ := False
  ahead _ _ := True

theorem alone_lawful : alone.Lawful where
  covers _ h := h.elim
  refl _ := trivial
  trans _ _ := trivial
  guarded _ _ h := h.elim

theorem alone_suits (D : Discipline) : alone.Suits D where
  holds _ h := h.elim
  admits _ _ h := h.elim
  onward _ _ _ _ _ := trivial

theorem alone_couples {α : Type} {D : Discipline} {ends : Except Fault α → Prop}
    {a b : Action Session α} (ha : D.Ends ends a) (hb : D.Ends ends b) :
    alone.Couples D ends a b :=
  ⟨ha, hb, fun _ _ h => h.elim⟩

theorem Matches.left {C : Coupling} {D : Discipline} {rules : HostRules} {ev ev' : Evaluator}
    (h : C.Matches D rules ev ev') : D.Evaluates rules ev :=
  fun e => (h e).left

theorem Matches.right {C : Coupling} {D : Discipline} {rules : HostRules} {ev ev' : Evaluator}
    (h : C.Matches D rules ev ev') : D.Evaluates rules ev' :=
  fun e => (h e).right

end Coupling

namespace Discipline

open Session

section CallDefined

variable {D : Discipline} {rules : HostRules} {ev : Evaluator}
  (hown : ∀ error, (Fault.eval error).reason? = none → rules.fault (.eval error))
  (hvanished : ∀ name, rules.fault (.foreign (.bindingVanished name)))
  (hbind : ∀ name e, D.Permits (bindVar name (.expr e)))
  (hunbind : ∀ name, D.Permits (unbindVar name))

include hown hbind in
theorem bindFormals_keeps (pairs : List (String × Expr)) :
    D.Keeps rules (fun answer => ∀ fault, answer.2 = some fault → rules.fault fault)
      (DefinedFn.bindFormals pairs) := by
  induction pairs with
  | nil => exact .pure nofun
  | cons pair pairs ih =>
      refine (hbind pair.1 pair.2).bindVar.attempt_bind ?_
      rintro _ (rfl | rfl)
      · exact Keeps.bind ih fun answer hanswer => .pure hanswer
      · refine .pure ?_
        rintro _ ⟨⟩
        exact hown _ rfl

include hvanished hunbind in
theorem unbindFormals_keeps (names : List String) :
    D.Keeps rules (fun _ => True) (DefinedFn.unbindFormals names) := by
  induction names with
  | nil => exact .pure trivial
  | cons name names ih =>
      refine .andThen ((hunbind name).andEnds fun s => ?_) fun _ => ih
      rcases @result_unbindVar s name with h | h <;> rw [h]
      · trivial
      · exact hvanished name

include hown hvanished hbind hunbind in
/-- Where parameters may be bound and removed at any time, calls of defined functions keep the
discipline. -/
theorem callDefined_keeps (hev : D.Evaluates rules ev) (fn : DefinedFn) (args : List Expr) :
    D.Keeps rules rules.value (fn.call ev args) := by
  unfold DefinedFn.call
  split_ifs
  · exact fun s hs => ⟨hs, D.refl s, hown _ rfl⟩
  · refine .bind (bindFormals_keeps hown hbind _) fun answer hanswer => ?_
    obtain ⟨bound, refusal⟩ := answer
    refine Keeps.ensuring ?_ (unbindFormals_keeps hvanished hunbind bound)
    cases refusal with
    | some fault => exact .throw (hanswer fault rfl)
    | none => exact hev fn.body

end CallDefined

variable {D : Discipline} {rules : HostRules} {ev : Evaluator}

theorem run_keeps (htop : ∀ e, D.Keeps rules rules.value (ev.evaluateTop e))
    (hmalformed : ∀ error, rules.fault (.malformed error)) (text : String)
    (sourceName : Option String) : D.Keeps rules rules.RunValue (ev.run text sourceName) :=
  (Coupling.run_both (Coupling.alone_suits D) (fun e => Coupling.alone_couples (htop e) (htop e))
    hmalformed text sourceName).left

/-- The run of a chat host ends in faults without a text for the user only. -/
theorem execute_ends (htop : ∀ e, D.Keeps rules rules.value (ev.evaluateTop e))
    (hmalformed : ∀ error, rules.fault (.malformed error)) (text : String)
    (sourceName : Option String) :
    D.Ends (fun e => ∀ fault, e = .error fault →
      rules.fault fault ∧ Evaluator.shownFault? fault = none) (ev.execute text sourceName) :=
  (Coupling.execute_couples (Coupling.alone_suits D)
    (fun e => Coupling.alone_couples (htop e) (htop e)) hmalformed (fun _ h => h.elim)
    text sourceName).left

namespace Lawful

variable {inside : BufferId → Discipline} (L : D.Lawful rules inside)
include L

theorem lifts : Coupling.alone.Lifts D rules inside where
  coupling := Coupling.alone_lawful
  discipline := L
  suits := Coupling.alone_suits D
  suitsInside id := Coupling.alone_suits (inside id)
  nested _ _ h := Coupling.alone_couples (L.nested _ h.left) (L.nested _ h.right)
  callDefined _ _ h fn args := Coupling.alone_couples (L.callDefined _ h.left fn args)
    (L.callDefined _ h.right fn args)
  withBuffer kind _ _ h := Coupling.alone_couples (L.withBuffer kind _ fun id => (h id).left)
    (L.withBuffer kind _ fun id => (h id).right)
  matchesInside _ _ h id e := Coupling.alone_couples (L.evaluatesInside _ h.left id e)
    (L.evaluatesInside _ h.right id e)
  top htop _ _ h := Coupling.alone_couples (L.top htop _ h.left) (L.top htop _ h.right)
  hosts _ _ h := h.elim

theorem evaluateStep (hev : D.Evaluates rules ev) : D.Evaluates rules (evaluateStep ev) :=
  (L.lifts.evaluateStep (fun e => Coupling.alone_couples (hev e) (hev e)) fun _ _ _ _ h => h).left

theorem evaluateWith (levels : Nat) : D.Evaluates rules (evaluateWith levels) := by
  induction levels with
  | zero => exact fun e => .get_bind fun s => .throw (L.ownError _ rfl)
  | succ levels ih => exact fun e => L.nested _ (L.evaluateStep ih e)

theorem evaluate : D.Evaluates rules evaluate :=
  fun e s hs => L.evaluateWith s.levels e s hs

end Lawful

end Discipline

end MacroScript
