import MacroScript.Proofs.Evaluation.Depth
import MacroScript.Proofs.Evaluation.Levels

/-!
# Evaluation ends in a value

An evaluation ends in a literal as long as the functions of the host do. What a
variable is bound to does not matter, since a reference evaluates it; only a
plain value of the host, which is its own value, can come out of a variable as
it is. The depth never grows above where the evaluation began, so there is room
for the value to be evaluated again.
-/
namespace MacroScript

/-- The values of evaluations: literals, and some plain values of the host. -/
def HostValue.IsValue (plain : HostValue → Prop) (v : HostValue) : Prop :=
  (∃ e : Expr, e.isLiteral = true ∧ v = .expr e) ∨ v.asExpr? = none ∧ plain v

/-- Hosts may do anything, or anything but close the session; all that matters is what they
return. -/
def HostRules.valued (plain : HostValue → Prop) (closes : Prop) : HostRules where
  hosts := True
  value := HostValue.IsValue plain
  fault _ := True
  atTop := True
  resets := True
  closes := closes
  binds := True
  unbinds := True

theorem HostRules.valued_lenient (plain : HostValue → Prop) (closes : Prop) :
    (valued plain closes).Lenient plain :=
  ⟨fun e he => .inl ⟨e, he, rfl⟩, fun _ hv hplain => .inr ⟨hv, hplain⟩, fun _ => trivial⟩

/-- There are no functions of the host, and evaluations end in values. -/
def HostRules.selfContained : HostRules where
  hosts := False
  value := HostValue.IsValue fun _ => True
  fault _ := True
  atTop := False
  resets := False
  closes := False
  binds := False
  unbinds := False

theorem HostRules.selfContained_lenient : selfContained.Lenient fun _ => True :=
  ⟨fun e he => .inl ⟨e, he, rfl⟩, fun _ hv hplain => .inr ⟨hv, hplain⟩, fun _ => trivial⟩

theorem Builtin.callLet_ok {ev : Evaluator} {name : String} {e : Expr} {s t : Session}
    {v : HostValue} (h : Builtin.callLet ev (.var name) e s = .ok v t) :
    ∃ value u, ev e s = .ok (.expr value) u ∧
      t = { u with vars := u.vars.insert name (.expr value) } := by
  obtain ⟨target, s', htarget, h⟩ := Action.bind_eq_ok_iff.mp h
  cases htarget
  obtain ⟨bound, u, hvalue, h⟩ := Action.bind_eq_ok_iff.mp h
  obtain ⟨_, t', hset, h⟩ := Action.bind_eq_ok_iff.mp h
  cases h
  cases bound with
  | expr value =>
      cases hset
      exact ⟨value, u, hvalue, rfl⟩
  | _ => cases hset

namespace Session

open Discipline

variable {plain : HostValue → Prop} {closes : Prop} {s t u : Session} {e : Expr} {v : HostValue}

theorem evaluateValue_isValue (hv : v.IsValue plain) (h : s.depth < s.maxDepth) :
    evaluateValue v s = .ok v s := by
  obtain ⟨e, he, rfl⟩ | ⟨hv, -⟩ := hv
  · exact evaluate_literal he h
  · exact evaluateValue_plain hv h

/-- An evaluation that ends in a value had room, and does not leave the depth above where it
began; a host that closed the session leaves it below zero. -/
theorem evaluate_ok_spec (hf : s.Follows (.valued plain closes)) (hb : s.BindsPlain plain)
    (h : evaluate e s = .ok v t) :
    v.IsValue plain ∧ s.depth < s.maxDepth ∧ t.maxDepth = s.maxDepth ∧
      (t.depth ≤ s.depth ∨ closes ∧ t.depth < 0) := by
  have L := keepingDepth_lawful (HostRules.valued_lenient plain closes)
  obtain ⟨hroom, u, hstep, rfl⟩ := evaluate_ok h
  obtain ⟨hr, rfl⟩ := Action.eq_ok_iff.mp hstep
  obtain ⟨-, ⟨hlimit, hdepth⟩, hv⟩ :=
    L.evaluateStep (L.evaluateWith _) e { s with depth := s.depth + 1 } ⟨hf, hb⟩
  rw [hr] at hv
  refine ⟨hv, hroom, hlimit, ?_⟩
  dsimp only at hdepth ⊢
  rcases hdepth with hdepth | ⟨hcloses, hdepth⟩
  · exact .inl (by omega)
  · exact .inr ⟨hcloses, by omega⟩

theorem evaluate_let_ok {f name : String} (hfind : s.functions.find? f = some (.ofBuiltin .letVar))
    (h : evaluate (.call f [.var name, e]) s = .ok v t) :
    ∃ value u, evaluate e { s with depth := s.depth + 1 } = .ok (.expr value) u ∧
      t = { u with vars := u.vars.insert name (.expr value), depth := u.depth - 1 } := by
  obtain ⟨hroom, t', hstep, rfl⟩ := evaluate_ok h
  obtain ⟨fn, s', hlookup, hcall⟩ := Action.bind_eq_ok_iff.mp hstep
  rw [lookupFunction_eq] at hlookup
  simp only [hfind] at hlookup
  cases hlookup
  obtain ⟨value, u, hvalue, rfl⟩ := Builtin.callLet_ok hcall
  exact ⟨value, u, hvalue, rfl⟩

end Session

/-- Every evaluation that ends in a value ends in a literal, whatever the variables are bound to;
or in a plain value, if any is bound or returned by a host. The value is its own value, in the
session that the evaluation leaves as in any other with room for one evaluation, and a completed
`let` binds its name to the value. A host that closes the session in the midst of an evaluation
sets the depth to zero. Then there is still room for one evaluation, unless the limit is negative and
the depth was below it already, at -2 or less. -/
theorem Session.evaluate_isValue {plain : HostValue → Prop} {closes : Prop} {s : Session}
    (hf : s.Follows (.valued plain closes)) (hb : s.BindsPlain plain) :
    (∀ e v t, evaluate e s = .ok v t → v.IsValue plain ∧
      (∀ u : Session, u.depth < u.maxDepth → evaluateValue v u = .ok v u) ∧
      ((closes → -1 ≤ s.depth ∨ 0 ≤ s.maxDepth) → evaluateValue v t = .ok v t)) ∧
    ∀ f name e v t, s.functions.find? f = some (.ofBuiltin .letVar) →
      evaluate (.call f [.var name, e]) s = .ok v t →
      ∃ value u, evaluate e { s with depth := s.depth + 1 } = .ok (.expr value) u ∧
        value.isLiteral = true ∧ t.vars.find? name = some (.expr value) ∧
        ((closes → -1 ≤ s.depth ∨ 0 ≤ s.maxDepth) → evaluate (.var name) t = .ok (.expr value) t) := by
  constructor
  · intro e v t h
    obtain ⟨hv, hroom, hlimit, hdepth⟩ := evaluate_ok_spec hf hb h
    refine ⟨hv, fun _ => evaluateValue_isValue hv, fun hclosed => evaluateValue_isValue hv ?_⟩
    rw [hlimit]
    rcases hdepth with hdepth | ⟨hcloses, hdepth⟩
    · exact Int.lt_of_le_of_lt hdepth hroom
    · have hlimited := hclosed hcloses
      omega
  · intro f name e v t hfind h
    obtain ⟨value, u, hvalue, rfl⟩ := evaluate_let_ok hfind h
    have hb' : Session.BindsPlain plain { s with depth := s.depth + 1 } := hb
    have hf' : Session.Follows (.valued plain closes) { s with depth := s.depth + 1 } := hf
    obtain ⟨hv, hroom, hlimit, hdepth⟩ := evaluate_ok_spec hf' hb' hvalue
    have hliteral : value.isLiteral = true := by
      obtain ⟨e, he, heq⟩ | ⟨hnone, -⟩ := hv
      · cases heq
        exact he
      · cases hnone
    have hfound : (u.vars.insert name (.expr value)).find? name = some (.expr value) := by
      rw [Table.find?_insert, if_pos rfl]
    refine ⟨value, u, hvalue, hliteral, hfound, fun hclosed => ?_⟩
    refine evaluate_var_literal hfound hliteral ?_
    dsimp only at hroom hlimit hdepth ⊢
    rw [hlimit]
    rcases hdepth with hdepth | ⟨hcloses, hdepth⟩
    · omega
    · have hlimited := hclosed hcloses
      omega

/-- A name bound to the value of a variable that stands for the call of a host function. -/
theorem Session.evaluate_isValue_hostCall :
    ∃ s t : Session, s.vars.find? "x" = some (.expr (.call "h" [])) ∧
      evaluate (.call "let" [.var "y", .var "x"]) s = .ok (.expr .void) t ∧
      evaluateValue (.expr .void) t = .ok (.expr .void) t ∧
      evaluate (.var "y") t = .ok (.expr (.int 7)) t := by
  let host : HostFunction := fun _ _ => .done (.expr (.int 7))
  let vars : Table HostValue := Table.empty.insert "x" (.expr (.call "h" []))
  have hhost : Session.Follows (.valued (fun _ => False) False)
      (Session.withHost ⟨5, 200, none, none⟩ "h" host) :=
    .withHost ⟨trivial, fun _ _ => .inl ⟨.int 7, rfl, rfl⟩⟩
  have hf : Session.Follows (.valued (fun _ => False) False)
      { Session.withHost ⟨5, 200, none, none⟩ "h" host with vars := vars } := fun name => hhost name
  have hb : Session.BindsPlain (fun _ => False)
      { Session.withHost ⟨5, 200, none, none⟩ "h" host with vars := vars } :=
    Session.BindsPlain.insert (s := Session.fresh ⟨5, 200, none, none⟩) nofun "x" (.call "h" [])
  have hrun : ∃ t, evaluate (.call "let" [.var "y", .var "x"])
      { Session.withHost ⟨5, 200, none, none⟩ "h" host with vars := vars } = .ok (.expr .void) t ∧
        t.vars.find? "y" = some (.expr (.int 7)) := ⟨_, rfl, rfl⟩
  obtain ⟨t, hrun, hy⟩ := hrun
  obtain ⟨hvalue, hlet⟩ := Session.evaluate_isValue hf hb
  obtain ⟨value, u, -, -, hfind, hvar⟩ := hlet "let" "y" (.var "x") (.expr .void) t rfl hrun
  obtain rfl : Expr.int 7 = value := by
    rw [hy] at hfind
    exact HostValue.expr.inj (Option.some.inj hfind)
  exact ⟨_, t, rfl, hrun, (hvalue _ _ _ hrun).2.2 nofun, hvar nofun⟩

end MacroScript
