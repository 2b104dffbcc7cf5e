import Mathlib
import MacroScript.Proofs.Evaluation.Definitions
import MacroScript.Proofs.Expr.Substitution

/-!
# Bindings that nothing mentions

A name that stands neither in a tree that is evaluated, nor in what variables are
bound to, nor in a defined function, is not looked up, bound or removed by the
evaluation. Everything an evaluation comes to, through variables, arguments and
functions, is made of trees without the name again. So it does not matter whether
the name is bound, as a variable or as a function, and the binding stays.
-/
namespace MacroScript

namespace Expr

/-- The name stands in the tree neither as a variable nor as the name of a call. -/
def Omits (name : String) (e : Expr) : Prop :=
  e.Every fun sub => sub ≠ var name ∧ ∀ args, sub ≠ call name args

variable {name other : String} {args : List Expr} {e : Expr}

theorem omits_var_iff : (var other).Omits name ↔ other ≠ name := by
  simp [Omits, Every]

theorem omits_call_iff :
    (call other args).Omits name ↔ other ≠ name ∧ ∀ e ∈ args, e.Omits name := by
  simp [Omits, every_call_iff]

theorem omits_of_isLiteral (h : e.isLiteral = true) : e.Omits name := by
  cases e with
  | void | int _ | string _ => exact ⟨nofun, fun _ => nofun⟩
  | _ => cases h

end Expr

/-- The one table is the other one with an entry for a name that had none, or the same. -/
inductive Table.Adds {α : Type} (name : String) : Option α → Table α → Table α → Prop
  | none (table : Table α) : Adds name none table table
  | some {value : α} {table table' : Table α} : ¬ table.contains name = true →
      table'.find? name = some value → table'.erase name = table → Adds name (some value) table table'

namespace Table.Adds

variable {α : Type} {name other : String} {extra : Option α} {value : α} {table table' : Table α}

theorem of_insert (h : ¬ table.contains name = true) :
    Adds name (Option.some value) table (table.insert name value) :=
  .some h (by rw [find?_insert, if_pos rfl]) (erase_insert_of_free value h)

theorem eq (h : Adds name Option.none table table') : table' = table := by
  cases h
  rfl

theorem entry (h : Adds name (Option.some value) table table') :
    table'.find? name = Option.some value ∧ table'.erase name = table := by
  cases h with
  | some _ hfind herase => exact ⟨hfind, herase⟩

theorem find? (h : Adds name extra table table') (hother : other ≠ name) :
    table'.find? other = table.find? other := by
  cases h with
  | none => rfl
  | some _ _ herase => rw [← herase, find?_erase, if_neg hother]

theorem insert (h : Adds name extra table table') (hother : other ≠ name) (value : α) :
    Adds name extra (table.insert other value) (table'.insert other value) := by
  cases h with
  | none => exact .none _
  | some hfree hfind herase =>
      refine .some ?_ ?_ ?_
      · rw [contains_insert]
        exact fun h => h.elim hother.symm hfree
      · rw [find?_insert, if_neg hother.symm, hfind]
      · rw [erase_insert_of_ne hother, herase]

theorem erase (h : Adds name extra table table') (other : String) (hother : other ≠ name) :
    Adds name extra (table.erase other) (table'.erase other) := by
  cases h with
  | none => exact .none _
  | some hfree hfind herase =>
      refine .some ?_ ?_ ?_
      · rw [contains_erase]
        exact fun h => hfree h.2
      · rw [find?_erase, if_neg hother.symm, hfind]
      · rw [erase_comm, herase]

end Table.Adds

namespace Session

/-- The name stands in no tree that a variable is bound to and in no defined function. -/
structure Omits (s : Session) (name : String) : Prop where
  trees : s.Trees (Expr.Omits name)
  formals : ∀ other fn d, s.functions.find? other = some fn → fn.body = .defined d →
    name ∉ d.formals

theorem Omits.defining {s : Session} {name : String} {d : DefinedFn} (h : s.Omits name)
    (hformals : name ∉ d.formals) (hbody : d.body.Omits name) : (s.defining d).Omits name where
  trees := h.trees.defining hbody
  formals other fn d' hfind hd' := by
    obtain ⟨-, rfl⟩ | hfind := of_findFunction_defining hfind
    · cases hd'
      exact hformals
    · exact h.formals other fn d' hfind hd'

/-- The session with an entry more in the table of variables, in that of functions, or in both. -/
structure Extends (name : String) (v : Option HostValue) (fn : Option Function)
    (s s' : Session) : Prop where
  rest : s' = { s with vars := s'.vars, functions := s'.functions }
  vars : s.vars.Adds name v s'.vars
  functions : s.functions.Adds name fn s'.functions

end Session

open MacroScript.Action Session

/-- A run, and the same run with entries for a name that is not mentioned. -/
def extending (name : String) (v : Option HostValue) (fn : Option Function) : Simulation where
  states s s' := s.Follows .selfContained ∧ s.Omits name ∧ s.Extends name v fn s'
  trees e e' := e.Omits name ∧ e' = e
  names := (· ≠ name)
  fits _ args args' := List.Forall₂ (fun e e' => e.Omits name ∧ e' = e) args args'
  faults := Eq
  cut := False

section Extending

variable {name : String} {v : Option HostValue} {fn : Option Function} {s s' : Session}

namespace Session.Extends

variable (h : s.Extends name v fn s')
include h

theorem withVars {vars vars' : Table HostValue} (hvars : vars.Adds name v vars') :
    Extends name v fn { s with vars := vars } { s' with vars := vars' } where
  rest := by rw [h.rest]
  vars := hvars
  functions := h.functions

theorem defining {d : DefinedFn} (hname : d.name ≠ name) :
    (s.defining d).Extends name v fn (s'.defining d) where
  rest := by
    rw [h.rest]
    rfl
  vars := h.vars
  functions := h.functions.insert hname _

end Session.Extends

theorem extending_define {target params body target' params' body' : Expr}
    (h : (extending name v fn).fits .define [target, params, body] [target', params', body']) :
    (extending name v fn).relation.Relates (HostValue.IsValue fun _ => True)
      (Builtin.callDefine target params body) (Builtin.callDefine target' params' body') := by
  simp only [extending, List.forall₂_cons] at h
  obtain ⟨⟨htarget, rfl⟩, ⟨hparams, rfl⟩, ⟨hbody, rfl⟩, -⟩ := h
  refine Simulation.relates_callDefine (.inr fun _ => rfl) ?_ ?_
  · rintro s s' ⟨-, -, h⟩
    rw [h.rest]
    exact ⟨rfl, rfl, rfl⟩
  · cases hmade : Builtin.definition target' params' body' with
    | error fault => exact .error (.inr rfl)
    | ok d =>
        obtain ⟨rfl, rfl, -, rfl⟩ := Builtin.definition_eq_ok_iff.mp hmade
        have hname := Expr.omits_var_iff.mp htarget
        have hformals : name ∉ d.formals := fun hmem =>
          Expr.omits_var_iff.mp ((Expr.omits_call_iff.mp hparams).2 _ (List.mem_map_of_mem hmem)) rfl
        refine .ok rfl ?_
        rintro s s' ⟨hf, hs, h⟩
        exact ⟨hf.install trivial, hs.defining hformals hbody, h.defining hname⟩

theorem extending_inStep : (extending name v fn).InStep where
  same := .inr fun _ => rfl
  maxDepth h := by rw [h.2.2.rest]
  depth h := by rw [h.2.2.rest]
  emitted h := by rw [h.2.2.rest]
  withDepth := by
    rintro s s' depth ⟨hf, ⟨⟨hbound, hbodies⟩, hformals⟩, h⟩
    exact ⟨hf, ⟨⟨hbound, hbodies⟩, hformals⟩, by rw [h.rest], h.vars, h.functions⟩
  withEmitted := by
    rintro s s' emitted ⟨hf, ⟨⟨hbound, hbodies⟩, hformals⟩, h⟩
    exact ⟨hf, ⟨⟨hbound, hbodies⟩, hformals⟩, by rw [h.rest], h.vars, h.functions⟩

theorem extending_scratch : (extending name v fn).Scratch := by
  refine .of_same (.inr fun _ => rfl) (fun _ => trivial) (fun h => by rw [h.2.2.rest]) ?_
  rintro s s' scratch ⟨hf, ⟨⟨hbound, hbodies⟩, hformals⟩, h⟩
  exact ⟨hf, ⟨⟨hbound, hbodies⟩, hformals⟩, by rw [h.rest], h.vars, h.functions⟩

theorem extending_lawful : (extending name v fn).Lawful where
  same := .inr fun _ => rfl
  guarded _ _ _ h := congrArg _ h
  literal h := ⟨Expr.omits_of_isLiteral h, rfl⟩
  enter := extending_inStep.enter
  leave := extending_inStep.leave
  emit := extending_inStep.emit
  scratch := extending_scratch
  contains := by
    rintro s s' other hother ⟨-, -, h⟩
    unfold Table.contains
    rw [h.vars.find? hother]
  keeps h := h.elim
  insert := by
    rintro s s' other e _ hother - ⟨he, rfl⟩ ⟨hf, hs, h⟩
    exact ⟨hf, ⟨hs.trees.insert he, hs.formals⟩, h.withVars (h.vars.insert hother _)⟩
  erase := by
    rintro s s' other hother - ⟨hf, hs, h⟩
    exact ⟨hf, ⟨hs.trees.erase, hs.formals⟩, h.withVars (h.vars.erase other hother)⟩
  lookupVar := by
    rintro s s' other ⟨hother, -⟩ ⟨-, hs, h⟩
    rw [h.vars.find? (Expr.omits_var_iff.mp hother)]
    exact Simulation.bound_self fun e hfind => ⟨hs.trees.bound other e hfind, rfl⟩
  lookupFunction := by
    rintro s s' other args _ ⟨hcall, heq⟩ ⟨hf, hs, h⟩
    cases heq
    obtain ⟨hother, hargs⟩ := Expr.omits_call_iff.mp hcall
    rw [h.functions.find? hother]
    cases hfind : s.functions.find? other with
    | none => exact .none
    | some found =>
        refine .some ⟨rfl, rfl, Simulation.callables_self ?_ ?_ (hf other found hfind).hosts⟩
        · exact fun _ _ => List.forall₂_same.mpr fun e he => ⟨hargs e he, rfl⟩
        · intro d hbody
          have hformals := hs.formals other found d hfind hbody
          refine ⟨fun formal hmem => ne_of_mem_of_not_mem hmem hformals, ?_, rfl⟩
          exact hs.trees.bodies other found d hfind hbody
  each h := h
  target := by
    rintro _ target _ _ h
    simp only [extending, List.forall₂_cons] at h
    obtain ⟨⟨htarget, rfl⟩, -⟩ := h
    exact Simulation.relates_expectVar (.inr fun _ => rfl)
      fun other heq => Expr.omits_var_iff.mp (heq ▸ htarget)
  define := extending_define

theorem extending_heads {e e' : Expr} (h : (extending name v fn).trees e e') :
    (extending name v fn).Heads e e' := by
  obtain ⟨he, rfl⟩ := h
  refine .of_self ?_
  rintro other args rfl arg harg
  exact ⟨(Expr.omits_call_iff.mp he).2 arg harg, rfl⟩

/-- Two sessions that differ in entries for a name go on to do so. -/
theorem Session.Extends.evaluate (h : s.Extends name v fn s') (hf : s.Follows .selfContained)
    (hs : s.Omits name) {e : Expr} (he : e.Omits name) :
    (evaluate e).result s' = (evaluate e).result s ∧
      ((evaluate e).final s).Extends name v fn ((evaluate e).final s') := by
  have L := @extending_lawful name v fn
  have hmeets := L.evaluate extending_inStep (fun hev _ _ h => L.evaluateStep hev h (extending_heads h))
    ⟨he, rfl⟩ s s' ⟨hf, hs, h⟩
  obtain ⟨hcut, -⟩ | ⟨hends, -, -, h⟩ := hmeets
  · exact hcut.elim
  · refine ⟨?_, h⟩
    generalize (MacroScript.evaluate e).result s = r at hends
    generalize (MacroScript.evaluate e).result s' = r' at hends
    cases hends with
    | ok _ => rfl
    | error hfault => rw [hfault]

/-- A name that is mentioned nowhere may be bound to anything, as a variable or as a function. An
evaluation then comes to the same value or fault, and what it leaves differs in the binding only. -/
theorem Session.evaluate_unmentioned {e : Expr} (hf : s.Follows .selfContained) (hs : s.Omits name)
    (he : e.Omits name) :
    (∀ v, ¬ s.vars.contains name = true → ∃ vars, vars.find? name = some v ∧
      vars.erase name = ((evaluate e).final s).vars ∧
      (evaluate e).result { s with vars := s.vars.insert name v } = (evaluate e).result s ∧
      (evaluate e).final { s with vars := s.vars.insert name v } =
        { (evaluate e).final s with vars := vars }) ∧
    ∀ fn, ¬ s.functions.contains name = true → ∃ functions, functions.find? name = some fn ∧
      functions.erase name = ((evaluate e).final s).functions ∧
      (evaluate e).result (s.install name fn) = (evaluate e).result s ∧
      (evaluate e).final (s.install name fn) =
        { (evaluate e).final s with functions := functions } := by
  constructor
  · intro v hfree
    have hstart : s.Extends name (some v) none { s with vars := s.vars.insert name v } :=
      ⟨rfl, .of_insert hfree, .none _⟩
    obtain ⟨hresult, h⟩ := hstart.evaluate hf hs he
    exact ⟨_, h.vars.entry.1, h.vars.entry.2, hresult, h.rest.trans (by rw [h.functions.eq])⟩
  · intro fn hfree
    have hstart : s.Extends name none (some fn) (s.install name fn) :=
      ⟨rfl, .none _, .of_insert hfree⟩
    obtain ⟨hresult, h⟩ := hstart.evaluate hf hs he
    exact ⟨_, h.functions.entry.1, h.functions.entry.2, hresult, h.rest.trans (by rw [h.vars.eq])⟩

end Extending

/-- A session with a function that adds a variable to its argument. -/
def Session.withAddY : Session :=
  { ((fresh ⟨5, 200, none, none⟩).install "add" (.ofBuiltin .add)).install "addY"
      (.ofDefined ⟨"addY", ["x"], .call "add" [.var "x", .var "y"]⟩) with
    vars := Table.empty.insert "y" (.expr (.int 2)) }

theorem Session.withAddY_omits : withAddY.Omits "z" := by
  have hdefined : ∀ other fn d, withAddY.functions.find? other = some fn → fn.body = .defined d →
      d = ⟨"addY", ["x"], .call "add" [.var "x", .var "y"]⟩ := by
    intro other fn d hfind hd
    simp only [withAddY, install, fresh, Table.find?_insert, Table.find?_empty] at hfind
    split_ifs at hfind
    · cases hfind
      cases hd
      rfl
    · cases hfind
      cases hd
  refine ⟨⟨fun other e hfind => ?_, fun other fn d hfind hd => ?_⟩, fun other fn d hfind hd => ?_⟩
  · simp only [withAddY, Table.find?_insert, Table.find?_empty] at hfind
    split_ifs at hfind
    cases hfind
    exact Expr.omits_of_isLiteral rfl
  · rw [hdefined other fn d hfind hd]
    simp [Expr.omits_call_iff, Expr.omits_var_iff]
  · rw [hdefined other fn d hfind hd]
    decide

/-- Neither a variable that stands for itself nor another function for definitions is noticed. -/
theorem Session.evaluate_unmentioned_addY :
    (evaluate (.call "addY" [.int 1])).result
      { withAddY with vars := withAddY.vars.insert "z" (.expr (.var "z")) } = .ok (.expr (.int 3)) ∧
    (evaluate (.call "addY" [.int 1])).result (withAddY.install "z" (.ofBuiltin .define)) =
      .ok (.expr (.int 3)) := by
  have hfollows : withAddY.Follows .selfContained :=
    ((Follows.fresh _).install (Function.follows_ofBuiltin _ _)).install trivial
  have homits : (Expr.call "addY" [.int 1]).Omits "z" :=
    Expr.omits_call_iff.mpr ⟨by decide, List.forall_mem_singleton.mpr (Expr.omits_of_isLiteral rfl)⟩
  have hresult : (evaluate (.call "addY" [.int 1])).result withAddY = .ok (.expr (.int 3)) := by cbv
  obtain ⟨hvar, hfunction⟩ := evaluate_unmentioned hfollows withAddY_omits homits
  obtain ⟨-, -, -, hvar, -⟩ := hvar (.expr (.var "z")) (by decide)
  obtain ⟨-, -, -, hfunction, -⟩ := hfunction (.ofBuiltin .define) (by decide)
  exact ⟨hvar.trans hresult, hfunction.trans hresult⟩

end MacroScript
