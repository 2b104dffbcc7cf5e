import Mathlib
import MacroScript.Proofs.Evaluation.BoundValues
import MacroScript.Proofs.Evaluation.Definitions
import MacroScript.Proofs.Expr.Substitution

/-!
# Calls of defined functions are substitutions

A defined function is called by name: its parameters are bound to the arguments
as they are, in the one table of variables. As long as the parameters occur in
the body of the function only, this comes to the same as replacing them in the
body.

While the body is evaluated, every reference to a parameter is one level deeper
than the argument that stands in its place. So the depths of the two runs drift
apart, in favour of the run without parameters, which has room wherever the
other one has.
-/
namespace MacroScript

namespace Session

def NamesBuiltin (s : Session) (b : Builtin) (name : String) : Prop :=
  ∃ fn, s.functions.find? name = some fn ∧ fn.body = .builtin b

/-- The tree is not a definition in which a parameter occurs, and does not give a parameter a
value. -/
def Spares (s : Session) (params : List String) : Expr → Prop
  | .call name args =>
      (s.NamesBuiltin .define name → ∀ e ∈ args, e.Avoids params) ∧
        (s.NamesBuiltin .letVar name → ∀ param ∈ params, args.head? ≠ some (.var param))
  | _ => True

/-- The tree and the same tree with the parameters replaced, which it leaves alone. -/
def Replaced (s : Session) (pairs : List (String × Expr)) (e e' : Expr) : Prop :=
  e.Every (s.Spares (pairs.map Prod.fst)) ∧ e' = e.subst pairs

/-- The parameters of a function occur in its body only, which leaves them alone. -/
structure SetsApart (s : Session) (d : DefinedFn) (args : List Expr) : Prop where
  args : ∀ e ∈ args, e.Avoids d.formals
  bound : ∀ name e, s.vars.find? name = some (.expr e) → e.Avoids d.formals
  others : ∀ name fn other, s.functions.find? name = some fn → fn.body = .defined other →
    other ≠ d → other.body.Avoids d.formals
  body : d.body.Every (s.Spares d.formals)

variable {s : Session} {params : List String} {e : Expr}

theorem every_spares_of_avoids (h : e.Avoids params) : e.Every (s.Spares params) := by
  refine Expr.Every.imp (fun sub hsub => ?_) (Expr.Every.within h)
  cases sub with
  | call name args =>
      have hargs := Expr.avoids_call_iff.mp hsub
      refine ⟨fun _ => hargs, fun _ param hparam hhead => ?_⟩
      have havoids := hargs _ (List.mem_of_mem_head? hhead)
      exact Expr.avoids_var_iff.mp havoids hparam
  | _ => trivial

theorem replaced_of_avoids {pairs : List (String × Expr)} (h : e.Avoids (pairs.map Prod.fst)) :
    s.Replaced pairs e e :=
  ⟨every_spares_of_avoids h, (Expr.subst_eq_self h).symm⟩

theorem replaced_each {pairs : List (String × Expr)} {args : List Expr}
    (h : ∀ e ∈ args, e.Every (s.Spares (pairs.map Prod.fst))) :
    List.Forall₂ (s.Replaced pairs) args (Expr.substIn pairs args) := by
  rw [Expr.substIn_eq_map, List.forall₂_map_right_iff, List.forall₂_same]
  exact fun e he => ⟨h e he, rfl⟩

end Session

open MacroScript.Action Session

/-- The tables of a session in which parameters are bound to arguments: all other names are bound to
trees that leave the parameters alone. -/
structure BindsParams (origin : Session) (pairs : List (String × Expr)) (vars : Table HostValue)
    (functions : Table Function) : Prop where
  params : ∀ name e, pairs.lookup name = some e → vars.find? name = some (.expr e)
  bound : ∀ name e, name ∉ pairs.map Prod.fst → vars.find? name = some (.expr e) →
    e.Every (origin.Spares (pairs.map Prod.fst))
  builtins : ∀ name fn b, functions.find? name = some fn → fn.body = .builtin b →
    origin.NamesBuiltin b name
  defined : ∀ name fn d, functions.find? name = some fn → fn.body = .defined d →
    (∀ formal ∈ d.formals, formal ∉ pairs.map Prod.fst) → d.body.Avoids (pairs.map Prod.fst)
  hosted : ∀ name fn, functions.find? name = some fn → ¬ fn.IsHosted

theorem mem_of_lookup {pairs : List (String × Expr)} {name : String} {e : Expr}
    (h : pairs.lookup name = some e) : (name, e) ∈ pairs := by
  obtain ⟨before, after, rfl, -⟩ := List.lookup_eq_some_iff.mp h
  simp

theorem mem_params_of_lookup {pairs : List (String × Expr)} {name : String} {e : Expr}
    (h : pairs.lookup name = some e) : name ∈ pairs.map Prod.fst :=
  List.mem_map_of_mem (mem_of_lookup h)

namespace BindsParams

variable {origin : Session} {pairs : List (String × Expr)} {vars : Table HostValue}
  {functions : Table Function} {name : String} {e : Expr}
  (h : BindsParams origin pairs vars functions)
include h

theorem insert (hname : name ∉ pairs.map Prod.fst)
    (he : e.Every (origin.Spares (pairs.map Prod.fst))) :
    BindsParams origin pairs (vars.insert name (.expr e)) functions where
  params other actual hactual := by
    rw [Table.find?_insert, if_neg (ne_of_mem_of_not_mem (mem_params_of_lookup hactual) hname)]
    exact h.params other actual hactual
  bound other e' hother hfind := by
    obtain ⟨-, heq⟩ | hfind := Table.of_find?_insert hfind
    · exact HostValue.expr.inj heq ▸ he
    · exact h.bound other e' hother hfind
  builtins := h.builtins
  defined := h.defined
  hosted := h.hosted

theorem erase (hname : name ∉ pairs.map Prod.fst) :
    BindsParams origin pairs (vars.erase name) functions where
  params other actual hactual := by
    rw [Table.find?_erase, if_neg (ne_of_mem_of_not_mem (mem_params_of_lookup hactual) hname)]
    exact h.params other actual hactual
  bound other e' hother hfind := h.bound other e' hother (Table.of_find?_erase hfind)
  builtins := h.builtins
  defined := h.defined
  hosted := h.hosted

theorem install {d : DefinedFn} (hbody : d.body.Avoids (pairs.map Prod.fst)) :
    BindsParams origin pairs vars (functions.insert name (.ofDefined d)) where
  params := h.params
  bound := h.bound
  builtins other fn b hfind hb := by
    obtain ⟨-, rfl⟩ | hfind := Table.of_find?_insert hfind
    · cases hb
    · exact h.builtins other fn b hfind hb
  defined other fn d' hfind hd := by
    obtain ⟨-, rfl⟩ | hfind := Table.of_find?_insert hfind
    · cases hd
      exact fun _ => hbody
    · exact h.defined other fn d' hfind hd
  hosted other fn hfind := by
    obtain ⟨-, rfl⟩ | hfind := Table.of_find?_insert hfind
    · rintro ⟨_, _, hb⟩
      cases hb
    · exact h.hosted other fn hfind

theorem refused {d : DefinedFn} {args : List Expr} {formal : String} (hformal : formal ∈ d.formals)
    (hparam : formal ∈ pairs.map Prod.fst) : ¬ d.Accepts args vars := by
  intro haccepts
  apply haccepts.2.2 formal hformal
  cases hlookup : pairs.lookup formal with
  | none => exact absurd hparam ((Table.lookup_eq_none_iff pairs).mp hlookup)
  | some actual =>
      unfold Table.contains
      rw [h.params formal actual hlookup, Option.isSome_some]

end BindsParams

/-- The session without the parameters, with the arguments in their place, so many levels behind. -/
def Session.substituted (s : Session) (pairs : List (String × Expr)) (lag : Nat) : Session :=
  { s with
    vars := (s.vars.eraseAll (pairs.map Prod.fst)).map (HostValue.subst pairs)
    depth := s.depth - lag }

/-- A run with parameters bound to arguments, and a run with the arguments in their place. -/
def substituting (origin : Session) (pairs : List (String × Expr)) (lag : Nat) : Simulation where
  states s s' := BindsParams origin pairs s.vars s.functions ∧ s' = s.substituted pairs lag
  trees := origin.Replaced pairs
  names name := name ∉ pairs.map Prod.fst
  fits b args args' :=
    List.Forall₂ (origin.Replaced pairs) args args' ∧
    (b = .define → ∀ e ∈ args, e.Avoids (pairs.map Prod.fst)) ∧
    (b = .letVar → ∀ param ∈ pairs.map Prod.fst, args.head? ≠ some (.var param))
  faults _ _ := False
  cut := True

section Substituting

variable {origin : Session} {pairs : List (String × Expr)} {lag : Nat} {s s' : Session}
  {name : String} {e e' : Expr} {args args' : List Expr}

theorem Session.substituted_at (lag : Nat) {lag' : Nat} {depth depth' : Int}
    (h : depth' = depth - lag') :
    { s.substituted pairs lag with depth := depth' } =
      Session.substituted { s with depth := depth } pairs lag' := by
  subst h
  rfl

theorem Session.find?_substituted (hname : name ∉ pairs.map Prod.fst) :
    (s.substituted pairs lag).vars.find? name =
      (s.vars.find? name).map (HostValue.subst pairs) := by
  unfold substituted
  rw [Table.find?_map, Table.find?_eraseAll, if_neg hname]

theorem substituting_define {target params body target' params' body' : Expr}
    (h : (substituting origin pairs lag).fits .define [target, params, body]
      [target', params', body']) :
    (substituting origin pairs lag).relation.Relates (HostValue.IsValue fun _ => True)
      (Builtin.callDefine target params body) (Builtin.callDefine target' params' body') := by
  obtain ⟨htrees, havoids, -⟩ := h
  have havoids := havoids rfl
  simp only [List.forall₂_cons] at htrees
  obtain ⟨⟨-, rfl⟩, ⟨-, rfl⟩, ⟨-, rfl⟩, -⟩ := htrees
  rw [Expr.subst_eq_self (havoids target (by simp)), Expr.subst_eq_self (havoids params (by simp)),
    Expr.subst_eq_self (havoids body (by simp))]
  refine Simulation.relates_callDefine (.inl trivial) ?_ ?_
  · rintro s _ ⟨-, rfl⟩
    exact ⟨rfl, rfl, rfl⟩
  · cases hmade : Builtin.definition target params body with
    | error fault => exact .error (.inl trivial)
    | ok d =>
        obtain ⟨-, -, -, hbody⟩ := Builtin.definition_eq_ok_iff.mp hmade
        refine .ok rfl ?_
        rintro s _ ⟨hs, rfl⟩
        exact ⟨hs.install (hbody ▸ havoids body (by simp)), rfl⟩

theorem substituting_callables {fn : Function} (hs : BindsParams origin pairs s.vars s.functions)
    (hfind : s.functions.find? name = some fn)
    (h : (Expr.call name args).Every (origin.Spares (pairs.map Prod.fst))) :
    (substituting origin pairs lag).Callables s args (Expr.substIn pairs args) fn.body fn.body := by
  obtain ⟨⟨hdefine, hlet⟩, hargs⟩ := Expr.every_call_iff.mp h
  cases hbody : fn.body with
  | builtin b =>
      have hnames := hs.builtins name fn b hfind hbody
      refine ⟨rfl, replaced_each hargs, ?_, ?_⟩
      · rintro rfl
        exact hdefine hnames
      · rintro rfl
        exact hlet hnames
  | defined d =>
      by_cases hformals : ∀ formal ∈ d.formals, formal ∉ pairs.map Prod.fst
      · have havoids := hs.defined name fn d hfind hbody hformals
        exact .inl ⟨rfl, rfl, hformals, replaced_of_avoids havoids⟩
      · push Not at hformals
        obtain ⟨formal, hformal, hparam⟩ := hformals
        obtain ⟨fault, -, hcall⟩ := DefinedFn.call_refused (hs.refused hformal hparam)
        exact .inr ⟨trivial, fun ev => ⟨fault, (eq_error_iff.mp (hcall ev s rfl)).1⟩⟩
  | hosted registration host => exact hs.hosted name fn hfind ⟨_, _, hbody⟩

theorem substituting_target {target target' : Expr}
    (h : (substituting origin pairs lag).fits .letVar [target, e] [target', e']) :
    (substituting origin pairs lag).relation.Relates (· ∉ pairs.map Prod.fst)
      (Action.ofExcept target.expectVar) (Action.ofExcept target'.expectVar) := by
  obtain ⟨htrees, -, hlet⟩ := h
  simp only [List.forall₂_cons] at htrees
  obtain ⟨⟨-, rfl⟩, -⟩ := htrees
  intro s s' hstates
  cases target with
  | var name =>
      have hname : name ∉ pairs.map Prod.fst := fun hparam => hlet rfl name hparam rfl
      rw [Expr.subst_eq_self (Expr.avoids_var_iff.mpr hname)]
      exact .pure hname hstates
  | _ => exact .inl ⟨trivial, _, rfl⟩

theorem substituting_lawful (hactuals : ∀ pair ∈ pairs, pair.2.Avoids (pairs.map Prod.fst)) :
    (substituting origin pairs lag).Lawful where
  same := .inl trivial
  guarded _ _ _ h := h.elim
  literal h := replaced_of_avoids (Expr.avoids_of_isLiteral h)
  enter := by
    rintro s _ ⟨hs, rfl⟩
    by_cases hroom : s.depth < s.maxDepth
    · have hroom' : (s.substituted pairs lag).depth < (s.substituted pairs lag).maxDepth := by
        dsimp only [substituted]
        omega
      refine .of_ok trivial ?_ (enter_of_room hroom) (enter_of_room hroom')
      exact ⟨hs, substituted_at lag (by dsimp only [substituted]; omega)⟩
    · have hfull := enter_of_no_room (Int.not_lt.mp hroom)
      exact .inl ⟨trivial, _, (eq_error_iff.mp hfull).1⟩
  leave := by
    rintro s _ ⟨hs, rfl⟩
    exact .inr ⟨.ok trivial, hs, substituted_at lag (by dsimp only [substituted]; omega)⟩
  emit text := by
    rintro s _ ⟨hs, rfl⟩
    exact .inr ⟨.ok trivial, hs, rfl⟩
  scratch := by
    refine .of_same (.inl trivial) (fun _ => trivial) ?_ ?_
    · rintro s _ ⟨-, rfl⟩
      rfl
    · rintro s _ scratch ⟨hs, rfl⟩
      exact ⟨hs, rfl⟩
  contains := by
    rintro s _ name hname ⟨-, rfl⟩
    unfold Table.contains
    rw [find?_substituted hname, Option.isSome_map]
  keeps h := h.elim
  insert := by
    rintro s _ name e _ hname - ⟨he, rfl⟩ ⟨hs, rfl⟩
    refine ⟨hs.insert hname he, ?_⟩
    unfold substituted
    rw [Table.eraseAll_insert_of_not_mem hname, Table.map_insert, HostValue.subst]
  erase := by
    rintro s _ name hname - ⟨hs, rfl⟩
    refine ⟨hs.erase hname, ?_⟩
    unfold substituted
    rw [Table.eraseAll_erase, Table.map_erase]
  lookupVar := by
    rintro s _ name ⟨-, hsubst⟩ ⟨hs, rfl⟩
    have hname : name ∉ pairs.map Prod.fst := by
      intro hparam
      cases hlookup : pairs.lookup name with
      | none => exact (Table.lookup_eq_none_iff pairs).mp hlookup hparam
      | some actual =>
          rw [Expr.subst, hlookup, Option.getD_some] at hsubst
          subst hsubst
          exact Expr.avoids_var_iff.mp (hactuals _ (mem_of_lookup hlookup)) hparam
    rw [find?_substituted hname]
    cases hfind : s.vars.find? name with
    | none => exact .none
    | some v =>
        refine .some ?_
        cases v with
        | expr e => exact ⟨hs.bound name e hname hfind, rfl⟩
        | _ => rfl
  lookupFunction := by
    rintro s _ name args args' ⟨hspares, hsubst⟩ ⟨hs, rfl⟩
    cases hsubst
    have hsame : (s.substituted pairs lag).functions = s.functions := rfl
    rw [hsame]
    cases hfind : s.functions.find? name with
    | none => exact .none
    | some fn => exact .some ⟨rfl, rfl, substituting_callables hs hfind hspares⟩
  each h := h.1
  target := substituting_target
  define := substituting_define

/-- A tree and its replacement have the same head, unless the tree is a parameter. -/
theorem replaced_heads (h : origin.Replaced pairs e e') :
    (substituting origin pairs lag).Heads e e' ∨
      ∃ name, e = .var name ∧ pairs.lookup name = some e' := by
  obtain ⟨hspares, rfl⟩ := h
  cases e with
  | void | int _ | string _ => exact .inl (.literal _ rfl)
  | var name =>
      cases hlookup : pairs.lookup name with
      | none =>
          rw [Expr.subst, hlookup]
          exact .inl (.var name)
      | some actual =>
          rw [Expr.subst, hlookup]
          exact .inr ⟨name, rfl, hlookup⟩
  | call name args => exact .inl (.call name (replaced_each (Expr.every_call_iff.mp hspares).2))

/-- The run with parameters may be one level ahead for the time of an evaluation. -/
theorem substituting_ahead {kind : HostValue → Prop} {a b : Action Session HostValue}
    (hroom : s.depth < s.maxDepth) (h : (substituting origin pairs (lag + 1)).Meets kind a b
      { s with depth := s.depth + 1 } s') :
    (substituting origin pairs lag).Meets kind (do enter; a.ensuring leave) b s s' := by
  obtain ⟨hr, hf⟩ := eq_ok_iff.mp (enter_of_room hroom)
  unfold Simulation.Meets at h ⊢
  rw [result_bind_ok hr, final_bind_ok hr, hf, result_ensuring_ok result_leave, final_ensuring,
    final_leave]
  obtain ⟨hcut, hfault⟩ | ⟨hends, hbinds, hfinal⟩ := h
  · exact .inl ⟨hcut, hfault⟩
  · refine .inr ⟨?_, hbinds, ?_⟩
    · generalize a.result { s with depth := s.depth + 1 } = r at hends ⊢
      generalize b.result s' = r' at hends ⊢
      cases hends with
      | ok hv => exact .ok hv
      | error h => exact h.elim
    · rw [hfinal]
      exact substituted_at lag (by push_cast; omega)

/-- A reference to a parameter comes to the evaluation of the argument, one level deeper. -/
theorem substituting_param {levels more : Nat} {actual : Expr}
    (hactual : pairs.lookup name = some actual)
    (h : (substituting origin pairs (lag + 1)).relation.Relates (HostValue.IsValue fun _ => True)
      (evaluateWith levels actual) (evaluateWith more actual)) :
    (substituting origin pairs lag).relation.Relates (HostValue.IsValue fun _ => True)
      (evaluateWith (levels + 1) (.var name)) (evaluateWith more actual) := by
  rintro s _ ⟨hs, rfl⟩
  by_cases hroom : s.depth < s.maxDepth
  · refine substituting_ahead hroom ?_
    have hstates : (substituting origin pairs (lag + 1)).states { s with depth := s.depth + 1 }
        (s.substituted pairs lag) :=
      ⟨hs, substituted_at lag (by push_cast; omega)⟩
    have hstep := evaluateStep_var (s := { s with depth := s.depth + 1 })
      (hs.params name actual hactual)
    exact (h _ _ hstates).congr (hstep _) rfl
  · have hfull := enter_of_no_room (Int.not_lt.mp hroom)
    unfold Simulation.Meets evaluateWith
    rw [result_bind_error (eq_error_iff.mp hfull).1]
    exact .inl ⟨trivial, _, rfl⟩

/-- The run with the arguments in place of the parameters follows the other one with no more levels,
however far behind it is. -/
theorem substituting_evaluateWith
    (hactuals : ∀ pair ∈ pairs, pair.2.Avoids (pairs.map Prod.fst)) {levels more : Nat}
    (hlevels : levels ≤ more) (h : origin.Replaced pairs e e') :
    (substituting origin pairs lag).relation.Relates (HostValue.IsValue fun _ => True)
      (evaluateWith levels e) (evaluateWith more e') := by
  -- On the levels of the run with parameters: a reference to one of them takes a level that the
  -- other run does without, so the levels of that run and the distance are generalized.
  induction levels generalizing more lag e e' with
  | zero => exact fun s s' _ => .inl ⟨trivial, _, rfl⟩
  | succ levels ih =>
      have L : (substituting origin pairs lag).Lawful := substituting_lawful hactuals
      have hcases : (substituting origin pairs lag).Heads e e' ∨ _ := replaced_heads h
      obtain hheads | ⟨name, rfl, hlookup⟩ := hcases
      · obtain ⟨more, rfl⟩ : ∃ fewer, more = fewer + 1 := ⟨more - 1, by omega⟩
        exact L.nested (L.evaluateStep (ih (by omega)) h hheads)
      · have havoids := hactuals _ (mem_of_lookup hlookup)
        exact substituting_param hlookup (ih (by omega) (replaced_of_avoids havoids))

end Substituting

namespace Session

variable {s t : Session} {name : String} {d : DefinedFn} {args : List Expr} {v : HostValue}

theorem SetsApart.zip (h : s.SetsApart d args) (hlen : args.length = d.formals.length) :
    ∀ pair ∈ d.formals.zip args, pair.2.Avoids ((d.formals.zip args).map Prod.fst) := by
  intro pair hpair
  rw [DefinedFn.map_fst_zip_formals hlen]
  exact h.args _ (List.of_mem_zip hpair).2

theorem SetsApart.bindsParams (h : s.SetsApart d args) (hf : s.Follows .selfContained)
    (hlen : args.length = d.formals.length) {after : Table HostValue}
    (hbound : DefinedFn.Bound s.vars (d.formals.zip args) d.formals none after) :
    BindsParams s (d.formals.zip args) after s.functions where
  params name e hlookup := by
    have hformal := mem_params_of_lookup hlookup
    rw [DefinedFn.map_fst_zip_formals hlen] at hformal
    rw [hbound.found, if_pos hformal, hlookup, Option.map_some]
  bound name e hname hfind := by
    rw [DefinedFn.map_fst_zip_formals hlen] at hname ⊢
    rw [hbound.found, if_neg hname] at hfind
    exact every_spares_of_avoids (h.bound name e hfind)
  builtins name fn b hfind hb := ⟨fn, hfind, hb⟩
  defined name fn other hfind hother hformals := by
    rw [DefinedFn.map_fst_zip_formals hlen] at hformals ⊢
    by_cases hsame : other = d
    · -- The function shares its parameters with those that are bound, so it can have none.
      subst hsame
      have hnone : other.formals = [] := List.eq_nil_iff_forall_not_mem.mpr fun formal hformal =>
        hformals formal hformal hformal
      rw [hnone]
      exact h.body.imp fun _ _ => nofun
    · exact h.others name fn other hfind hother hsame
  hosted name fn hfind hhosted := (hf name fn hfind).hosts hhosted

/-- A call that ends in a value has evaluated the body with the parameters bound, and has taken them
back. What else is bound then was bound before or is a value. -/
theorem callDefined_ok {levels : Nat} (hf : s.Follows .selfContained)
    (h : d.call (evaluateWith levels) args s = .ok v t) :
    args.length = d.formals.length ∧ ∃ after u,
      DefinedFn.Bound s.vars (d.formals.zip args) d.formals none after ∧
      evaluateWith levels d.body { s with vars := after } = .ok v u ∧
      t = { u with vars := u.vars.eraseAll d.formals } ∧ s.BindsValues t := by
  have L := Discipline.bindingValues_lawful
  by_cases haccepts : d.Accepts args s.vars
  · obtain ⟨after, hbound, hcall⟩ := DefinedFn.call_of_keeps haccepts
    obtain ⟨-, hkept, -⟩ := L.evaluateWith levels d.body { s with vars := after } hf
    obtain ⟨hresult, hfinal⟩ := hcall _ s _ rfl rfl hkept.names
    obtain ⟨hr, rfl⟩ := eq_ok_iff.mp h
    rw [hresult] at hr
    refine ⟨haccepts.1, after, _, hbound, eq_ok_iff.mpr ⟨hr, rfl⟩, hfinal, ?_⟩
    rw [hfinal]
    exact hkept.eraseAll hbound
  · obtain ⟨fault, -, hcall⟩ := DefinedFn.call_refused haccepts
    rw [hcall _ s rfl] at h
    cases h

theorem SetsApart.map_subst (h : s.SetsApart d args) (hlen : args.length = d.formals.length)
    (hkept : s.BindsValues t) : t.vars.map (HostValue.subst (d.formals.zip args)) = t.vars := by
  refine Table.map_eq_self fun name v hfind => ?_
  cases v with
  | expr e =>
      have havoids : e.Avoids ((d.formals.zip args).map Prod.fst) := by
        rw [DefinedFn.map_fst_zip_formals hlen]
        obtain hbefore | ⟨literal, hliteral, heq⟩ | ⟨hplain, -⟩ := hkept.bound name _ hfind
        · exact h.bound name e hbefore
        · cases heq
          exact Expr.avoids_of_isLiteral hliteral
        · cases hplain
      rw [HostValue.subst, Expr.subst_eq_self havoids]
  | _ => rfl

end Session

/-- Where the call of a defined function ends in a value, so does the body of the function with all
parameters replaced by the arguments, and the session is left the same: its output, variables and
functions, and everything else. The call needs more depth, so this is not said of every fault. -/
theorem Session.evaluate_substituted {s t : Session} {name : String} {d : DefinedFn}
    {args : List Expr} {v : HostValue} (hf : s.Follows .selfContained)
    (hfind : s.functions.find? name = some (.ofDefined d)) (hapart : s.SetsApart d args)
    (h : evaluate (.call name args) s = .ok v t) :
    evaluate (d.body.subst (d.formals.zip args)) s = .ok v t := by
  obtain ⟨hroom, u, hstep, rfl⟩ := evaluate_ok h
  have hentered : Session.Follows .selfContained { s with depth := s.depth + 1 } := hf
  have hcall := evaluateStep_call (s := { s with depth := s.depth + 1 }) hfind
  rw [hcall] at hstep
  obtain ⟨hlen, after, u, hbound, hbody, rfl, hkept⟩ := callDefined_ok hentered hstep
  have hnames := DefinedFn.map_fst_zip_formals hlen
  have hstates : (substituting s (d.formals.zip args) 1).states
      { s with depth := s.depth + 1, vars := after } s := by
    refine ⟨hapart.bindsParams hf hlen hbound, ?_⟩
    unfold substituted
    rw [hnames, hbound.restores, hapart.map_subst hlen ⟨fun _ h => h, fun _ _ => .inl⟩]
    simp
  have hlevels : { s with depth := s.depth + 1 : Session }.levels ≤ s.levels := by
    rw [levels_entered hroom]
    exact Nat.le_succ _
  have hreplaced : s.Replaced (d.formals.zip args) d.body (d.body.subst (d.formals.zip args)) := by
    unfold Replaced
    rw [hnames]
    exact ⟨hapart.body, rfl⟩
  have hmeets := substituting_evaluateWith (hapart.zip hlen) hlevels hreplaced _ _ hstates
  obtain ⟨t, hvalue, -, rfl⟩ := hmeets.ok hbody
  refine hvalue.trans ?_
  unfold substituted
  rw [hnames, hapart.map_subst hlen ⟨hkept.names, hkept.bound⟩]
  rfl

/-- A function that evaluates its argument twice. -/
def DefinedFn.twice : DefinedFn := ⟨"twice", ["x"], .call "do" [.var "x", .var "x"]⟩

/-- A session in which this function can be called with an argument that prints. -/
def Session.withTwice : Session :=
  (((fresh ⟨5, 200, none, none⟩).install "echo" (.ofBuiltin .echo)).install "do"
    (.ofBuiltin .doAll)).install "twice" (.ofDefined .twice)

theorem Session.withTwice_setsApart :
    withTwice.SetsApart .twice [.call "echo" [.string "a"]] where
  args := by
    rw [List.forall_mem_singleton, Expr.avoids_call_iff, List.forall_mem_singleton]
    exact Expr.avoids_of_isLiteral rfl
  bound := nofun
  others name fn other hfind hother hne := by
    simp only [withTwice, install, fresh, Table.find?_insert, Table.find?_empty] at hfind
    split_ifs at hfind
    all_goals cases hfind
    all_goals cases hother
    exact absurd rfl hne
  body := by
    refine ⟨⟨?_, ?_⟩, trivial, trivial, trivial⟩
    · rintro ⟨fn, hfind, hbody⟩
      cases hfind
      cases hbody
    · rintro ⟨fn, hfind, hbody⟩
      cases hfind
      cases hbody

theorem Session.evaluate_substituted_twice :
    ∃ t, evaluate (.call "twice" [.call "echo" [.string "a"]]) withTwice = .ok (.expr .void) t ∧
      evaluate (.call "do" [.call "echo" [.string "a"], .call "echo" [.string "a"]]) withTwice =
        .ok (.expr .void) t ∧ t.output = ["a", "a"] := by
  have hfollows : withTwice.Follows .selfContained :=
    (((Follows.fresh _).install (Function.follows_ofBuiltin _ _)).install
      (Function.follows_ofBuiltin _ _)).install trivial
  have hfind : withTwice.functions.find? "twice" = some (.ofDefined .twice) := rfl
  have hresult : (evaluate (.call "twice" [.call "echo" [.string "a"]])).result withTwice =
      .ok (.expr .void) := by cbv
  have houtput : ((evaluate (.call "twice" [.call "echo" [.string "a"]])).final withTwice).output =
      ["a", "a"] := by cbv
  have hbody : DefinedFn.twice.body.subst (DefinedFn.twice.formals.zip [.call "echo" [.string "a"]]) =
      .call "do" [.call "echo" [.string "a"], .call "echo" [.string "a"]] := rfl
  have hcall := eq_ok_iff.mpr ⟨hresult, rfl⟩
  have hreplaced := evaluate_substituted hfollows hfind withTwice_setsApart hcall
  rw [hbody] at hreplaced
  exact ⟨_, hcall, hreplaced, houtput⟩

end MacroScript
