import MacroScript.Proofs.Evaluation.Definitions
import MacroScript.Proofs.Evaluation.Substitution
import MacroScript.Proofs.Reading.WrittenForm

/-!
# The unit and the call it is written as

The unit is written as a call of `do` without arguments, so a tree that is
written and read again has this call in place of every unit. As long as `do` is
what it is, the call has the unit as its value and takes one evaluation like any
literal. So the two trees can be evaluated one for the other, and so can the code
that the session holds.

What is evaluated may be handed on as it stands, as arguments and as bodies of
functions. So the two runs are compared up to how the code is written; what they
bind for good are values, in which the unit stays what it is.
-/
namespace MacroScript

/-- What a variable is bound to, as it is written. -/
def HostValue.asWritten : HostValue → HostValue
  | .expr e => .expr e.asWritten
  | value => value

def DefinedFn.asWritten (d : DefinedFn) : DefinedFn := { d with body := d.body.asWritten }

def FunctionBody.asWritten : FunctionBody → FunctionBody
  | .defined d => .defined d.asWritten
  | body => body

theorem FunctionBody.asWritten_eq_builtin_iff {body : FunctionBody} {b : Builtin} :
    body.asWritten = .builtin b ↔ body = .builtin b := by
  cases body <;> simp [asWritten]

def Function.asWritten (fn : Function) : Function := { fn with body := fn.body.asWritten }

def Kept.asWritten : Kept → Kept
  | .defined d => .defined d.asWritten
  | object => object

/-- The session with all code as it is written. -/
def Session.asWritten (s : Session) : Session :=
  { s with
    vars := s.vars.map HostValue.asWritten
    functions := s.functions.map Function.asWritten
    arena := { s.arena with kept := s.arena.kept.map Kept.asWritten } }

/-- The same fault, or errors of evaluation of one class. -/
inductive Fault.Akin : Fault → Fault → Prop
  | refl (fault : Fault) : Akin fault fault
  | eval {error error' : EvalError} : error'.kind = error.kind → Akin (.eval error) (.eval error')

theorem Fault.Akin.name {fault fault' : Fault} (h : fault.Akin fault') : fault'.name = fault.name := by
  cases h with
  | refl => rfl
  | eval hkind => exact congrArg EvalClass.name hkind

theorem Fault.Akin.guarded {fault fault' : Fault} (h : fault.Akin fault') (name : String) :
    (Function.guardedFault name fault).Akin (Function.guardedFault name fault') := by
  cases h with
  | refl => exact .refl _
  | eval hkind => exact .eval hkind

namespace Session

/-- The tree defines a function of the name. -/
def Redefines (s : Session) (name : String) (e : Expr) : Prop :=
  ∃ head params body, e = .call head [.var name, params, body] ∧ s.NamesBuiltin .define head

/-- No definition of the name stands in the tree. -/
def Retains (s : Session) (name : String) (e : Expr) : Prop := e.Every fun sub => ¬ s.Redefines name sub

variable {s s' : Session} {name : String} {args : List Expr} {e : Expr}

theorem retains_call_iff : s.Retains name (.call other args) ↔
    ¬ s.Redefines name (.call other args) ∧ ∀ e ∈ args, s.Retains name e :=
  Expr.every_call_iff

theorem retains_of_isLiteral (h : e.isLiteral = true) : s.Retains name e := by
  cases e with
  | void | int _ | string _ =>
      rintro ⟨_, _, _, hcall, -⟩
      cases hcall
  | _ => cases h

theorem asWritten_withVars {vars vars' : Table HostValue} (h : s'.asWritten = s.asWritten)
    (hvars : vars'.map HostValue.asWritten = vars.map HostValue.asWritten) :
    asWritten { s' with vars := vars' } = asWritten { s with vars := vars } :=
  congrArg₂ (fun (t : Session) vars => { t with vars := vars }) h hvars

theorem asWritten_defining (s : Session) (d : DefinedFn) :
    (s.defining d).asWritten = s.asWritten.defining d.asWritten := by
  unfold asWritten defining
  simp only [Table.map_insert, List.map_append, List.map_singleton]
  rfl

end Session

open Session

/-- A session, and one that differs in how the code is written. Up to that, nothing that was bound in
the beginning is bound to different trees. -/
structure Session.Rewrites (origin s s' : Session) : Prop where
  follows : s.Follows .selfContained
  trees : s.Trees (origin.Retains "do")
  builtins : ∀ name fn b, s.functions.find? name = some fn → fn.body = .builtin b →
    origin.NamesBuiltin b name
  unit : s.NamesBuiltin .doAll "do"
  kept : ∀ name, origin.vars.contains name = true →
    s.vars.contains name = true ∧ s'.vars.find? name = s.vars.find? name
  alike : s'.asWritten = s.asWritten

theorem rel_of_map_eq {α β : Type} {f : α → β} {found found' : Option α}
    (h : found'.map f = found.map f) : Option.Rel (fun a a' => f a' = f a) found found' := by
  cases found with
  | none =>
      obtain rfl := Option.map_eq_none_iff.mp h
      exact .none
  | some a =>
      obtain ⟨a', rfl, heq⟩ := Option.map_eq_some_iff.mp h
      exact .some heq

namespace Session.Rewrites

variable {origin s s' : Session} {name : String} {e e' : Expr} (h : origin.Rewrites s s')
include h

theorem vars : s'.vars.map HostValue.asWritten = s.vars.map HostValue.asWritten :=
  congrArg Session.vars h.alike

theorem functions : s'.functions.map Function.asWritten = s.functions.map Function.asWritten :=
  congrArg Session.functions h.alike

theorem findVar (name : String) : Option.Rel (fun v v' => v'.asWritten = v.asWritten)
    (s.vars.find? name) (s'.vars.find? name) := by
  refine rel_of_map_eq ?_
  rw [← Table.find?_map, ← Table.find?_map, h.vars]

theorem findFunction (name : String) : Option.Rel (fun fn fn' => fn'.asWritten = fn.asWritten)
    (s.functions.find? name) (s'.functions.find? name) := by
  refine rel_of_map_eq ?_
  rw [← Table.find?_map, ← Table.find?_map, h.functions]

/-- Only the tables of the first session are looked at. -/
theorem congr {t t' : Session} (hvars : t.vars = s.vars) (hfunctions : t.functions = s.functions)
    (hvars' : t'.vars = s'.vars) (halike : t'.asWritten = t.asWritten) : origin.Rewrites t t' where
  follows := by
    unfold Follows
    rw [hfunctions]
    exact h.follows
  trees := ⟨hvars ▸ h.trees.bound, hfunctions ▸ h.trees.bodies⟩
  builtins := hfunctions ▸ h.builtins
  unit := by
    unfold NamesBuiltin
    rw [hfunctions]
    exact h.unit
  kept := by
    rw [hvars, hvars']
    exact h.kept
  alike := halike

theorem contains : s'.vars.contains name = s.vars.contains name := by
  unfold Table.contains
  rw [← Option.isSome_map, ← Table.find?_map, h.vars, Table.find?_map, Option.isSome_map]

theorem unit' : s'.NamesBuiltin .doAll "do" := by
  obtain ⟨fn, hfind, hb⟩ := h.unit
  have hfound := h.findFunction "do"
  rw [hfind] at hfound
  generalize hfind' : s'.functions.find? "do" = found' at hfound
  cases hfound with
  | @some _ fn' hfn =>
      have hbody : fn'.body.asWritten = fn.body.asWritten := congrArg Function.body hfn
      rw [hb] at hbody
      exact ⟨fn', hfind', FunctionBody.asWritten_eq_builtin_iff.mp hbody⟩

theorem insert (hkept : origin.vars.contains name = true → e' = e) (he : origin.Retains "do" e)
    (halike : e'.asWritten = e.asWritten) :
    origin.Rewrites { s with vars := s.vars.insert name (.expr e) }
      { s' with vars := s'.vars.insert name (.expr e') } where
  follows := h.follows
  trees := h.trees.insert he
  builtins := h.builtins
  unit := h.unit
  kept other hother := by
    obtain ⟨hcontains, hfind⟩ := h.kept other hother
    refine ⟨(Table.contains_insert ..).mpr (.inr hcontains), ?_⟩
    rw [Table.find?_insert, Table.find?_insert, hfind]
    split_ifs with hname
    · subst hname
      rw [hkept hother]
    · rfl
  alike := by
    have hvars : (s'.vars.insert name (.expr e')).map HostValue.asWritten =
        (s.vars.insert name (.expr e)).map HostValue.asWritten := by
      rw [Table.map_insert, Table.map_insert, h.vars, HostValue.asWritten, HostValue.asWritten, halike]
    exact asWritten_withVars h.alike hvars

theorem erase (hname : ¬ origin.vars.contains name = true) :
    origin.Rewrites { s with vars := s.vars.erase name }
      { s' with vars := s'.vars.erase name } where
  follows := h.follows
  trees := h.trees.erase
  builtins := h.builtins
  unit := h.unit
  kept other hother := by
    obtain ⟨hcontains, hfind⟩ := h.kept other hother
    have hne : other ≠ name := fun heq => hname (heq ▸ hother)
    refine ⟨(Table.contains_erase ..).mpr ⟨hne, hcontains⟩, ?_⟩
    rw [Table.find?_erase, Table.find?_erase, hfind]
  alike := by
    have hvars : (s'.vars.erase name).map HostValue.asWritten =
        (s.vars.erase name).map HostValue.asWritten := by
      rw [Table.map_erase, Table.map_erase, h.vars]
    exact asWritten_withVars h.alike hvars

theorem defining {d d' : DefinedFn} (hd : d'.asWritten = d.asWritten) (hname : d.name ≠ "do")
    (hbody : origin.Retains "do" d.body) :
    origin.Rewrites (s.defining d) (s'.defining d') where
  follows := h.follows.install trivial
  trees := h.trees.defining hbody
  builtins other fn b hfind hb := by
    obtain ⟨-, rfl⟩ | hfind := of_findFunction_defining hfind
    · cases hb
    · exact h.builtins other fn b hfind hb
  unit := by
    obtain ⟨fn, hfind, hb⟩ := h.unit
    exact ⟨fn, (findFunction_defining_of_ne hname.symm).trans hfind, hb⟩
  kept := h.kept
  alike := by rw [asWritten_defining, asWritten_defining, hd, h.alike]

end Session.Rewrites

/-- A run, and the same run with code that is written in the same way. -/
def rewriting (origin : Session) : Simulation where
  states := origin.Rewrites
  trees e e' := origin.Retains "do" e ∧ e'.asWritten = e.asWritten
  names _ := True
  kept name := origin.vars.contains name = true
  fits b args args' :=
    List.Forall₂ (fun e e' => origin.Retains "do" e ∧ e'.asWritten = e.asWritten) args args' ∧
    (b = .define → ∀ params body, args ≠ [.var "do", params, body])
  faults := Fault.Akin
  cut := False

section Rewriting

variable {origin s s' : Session} {name : String} {e e' : Expr} {args args' : List Expr}

theorem rewriting_args (h : ∀ e ∈ args, origin.Retains "do" e)
    (halike : args'.map Expr.asWritten = args.map Expr.asWritten) :
    List.Forall₂ (rewriting origin).trees args args' := by
  induction args generalizing args' with
  | nil =>
      obtain rfl := List.map_eq_nil_iff.mp halike
      exact .nil
  | cons e args ih =>
      cases args' with
      | nil => cases halike
      | cons e' args' =>
          rw [List.map_cons, List.map_cons, List.cons.injEq] at halike
          rw [List.forall_mem_cons] at h
          exact .cons ⟨h.1, halike.1⟩ (ih h.2 halike.2)

theorem definition_asWritten {target params body target' params' body' : Expr} {d : DefinedFn}
    (htarget : target'.asWritten = target.asWritten) (hparams : params'.asWritten = params.asWritten)
    (hmade : Builtin.definition target params body = .ok d) :
    Builtin.definition target' params' body' = .ok { d with body := body' } := by
  obtain ⟨rfl, rfl, hnodup, -⟩ := Builtin.definition_eq_ok_iff.mp hmade
  refine Builtin.definition_eq_ok_iff.mpr ⟨?_, ?_, hnodup, rfl⟩
  · exact Expr.asWritten_eq_var_iff.mp htarget
  · rw [Expr.asWritten, Expr.asWrittenIn_eq_map,
      Expr.map_asWritten_eq_vars_iff.mpr rfl] at hparams
    obtain ⟨-, hargs, -⟩ | ⟨names, rfl, hnames⟩ := Expr.asWritten_eq_call_iff.mp hparams
    · exact absurd hargs (by decide)
    · rw [Expr.map_asWritten_eq_vars_iff.mp hnames]

theorem rewriting_define {target params body target' params' body' : Expr}
    (h : (rewriting origin).fits .define [target, params, body] [target', params', body']) :
    (rewriting origin).relation.Relates (HostValue.IsValue fun _ => True)
      (Builtin.callDefine target params body) (Builtin.callDefine target' params' body') := by
  obtain ⟨htrees, hname⟩ := h
  simp only [List.forall₂_cons] at htrees
  obtain ⟨⟨-, htarget⟩, ⟨-, hparams⟩, ⟨hbody, halike⟩, -⟩ := htrees
  refine Simulation.relates_callDefine (.inr .refl) ?_ ?_
  · intro s s' h
    have harena := congrArg Session.arena h.alike
    simp only [asWritten, Scope.mk.injEq] at harena
    exact ⟨harena.1, harena.2.1, harena.2.2.1⟩
  · cases hmade : Builtin.definition target params body with
    | ok d =>
        rw [definition_asWritten htarget hparams hmade]
        obtain ⟨rfl, -, -, rfl⟩ := Builtin.definition_eq_ok_iff.mp hmade
        refine .ok rfl fun s s' h => h.defining ?_ ?_ hbody
        · unfold DefinedFn.asWritten
          rw [halike]
        · intro hdo
          rw [hdo] at hname
          exact hname rfl _ _ rfl
    | error fault =>
        cases hmade' : Builtin.definition target' params' body' with
        | ok d =>
            rw [definition_asWritten htarget.symm hparams.symm hmade'] at hmade
            cases hmade
        | error fault' =>
            obtain ⟨error, rfl, hkind⟩ := Builtin.definition_error hmade
            obtain ⟨error', rfl, hkind'⟩ := Builtin.definition_error hmade'
            exact .error (.inr (.eval (hkind'.trans hkind.symm)))

theorem rewriting_target {target target' : Expr}
    (h : (rewriting origin).fits .letVar [target, e] [target', e']) :
    (rewriting origin).relation.Relates (fun _ => True) (Action.ofExcept target.expectVar)
      (Action.ofExcept target'.expectVar) := by
  obtain ⟨htrees, -⟩ := h
  simp only [List.forall₂_cons] at htrees
  obtain ⟨⟨-, halike⟩, -⟩ := htrees
  intro s s' hstates
  cases target with
  | var name =>
      obtain rfl := Expr.asWritten_eq_var_iff.mp halike
      exact .pure trivial hstates
  | _ =>
      cases target' with
      | var name => cases halike
      | _ => exact .inr ⟨.error (.eval rfl), hstates⟩

theorem rewriting_callables (h : origin.Rewrites s s') {fn fn' : Function}
    (hfind : s.functions.find? name = some fn) (hfn : fn'.asWritten = fn.asWritten)
    (hcall : origin.Retains "do" (.call name args))
    (hargs : args'.map Expr.asWritten = args.map Expr.asWritten) :
    (rewriting origin).Callables s args args' fn.body fn'.body := by
  obtain ⟨hdefines, hretains⟩ := retains_call_iff.mp hcall
  have hbody : fn'.body.asWritten = fn.body.asWritten := congrArg Function.body hfn
  cases hb : fn.body with
  | builtin b =>
      rw [hb] at hbody
      rw [FunctionBody.asWritten_eq_builtin_iff.mp hbody]
      refine ⟨rfl, rewriting_args hretains hargs, ?_⟩
      rintro rfl params body rfl
      exact hdefines ⟨_, _, _, rfl, h.builtins name fn .define hfind hb⟩
  | defined d =>
      rw [hb] at hbody
      cases hb' : fn'.body with
      | defined d' =>
          rw [hb'] at hbody
          have hd := FunctionBody.defined.inj hbody
          exact .inl ⟨(congrArg DefinedFn.name hd :), (congrArg DefinedFn.formals hd :),
            fun _ _ => trivial, h.trees.bodies name fn d hfind hb, (congrArg DefinedFn.body hd :)⟩
      | _ =>
          rw [hb'] at hbody
          cases hbody
  | hosted registration host => exact ((h.follows name fn hfind).hosts ⟨_, _, hb⟩).elim

theorem rewriting_inStep : (rewriting origin).InStep where
  same := .inr .refl
  maxDepth h := (congrArg Session.maxDepth h.alike :)
  depth h := (congrArg Session.depth h.alike :)
  emitted h := (congrArg Session.emitted h.alike :)
  withDepth depth h :=
    h.congr rfl rfl rfl (congrArg (fun t : Session => { t with depth := depth }) h.alike)
  withEmitted emitted h :=
    h.congr rfl rfl rfl (congrArg (fun t : Session => { t with emitted := emitted }) h.alike)

theorem rewriting_scratch : (rewriting origin).Scratch :=
  .of_same (.inr .refl) (fun _ => trivial) (fun h => (congrArg Session.scratch h.alike :))
    fun scratch h =>
      h.congr rfl rfl rfl (congrArg (fun t : Session => { t with scratch := scratch }) h.alike)

theorem rewriting_lawful : (rewriting origin).Lawful where
  same := .inr .refl
  guarded name _ _ h := h.guarded name
  literal h := ⟨retains_of_isLiteral h, rfl⟩
  enter := rewriting_inStep.enter
  leave := rewriting_inStep.leave
  emit := rewriting_inStep.emit
  scratch := rewriting_scratch
  contains _ h := h.contains
  keeps hkept h := (h.kept _ hkept).1
  insert _ hkept he h := h.insert hkept he.1 he.2
  erase _ hkept h := h.erase hkept
  lookupVar := by
    rintro s s' name - h
    have hfound := h.findVar name
    generalize hfind : s.vars.find? name = found at hfound ⊢
    generalize s'.vars.find? name = found' at hfound ⊢
    cases hfound with
    | none => exact .none
    | @some v v' hv =>
        refine .some ?_
        cases v with
        | expr e =>
            cases v' with
            | expr e' => exact ⟨h.trees.bound name e hfind, HostValue.expr.inj hv⟩
            | _ => cases hv
        | _ =>
            cases v' <;> cases hv
            rfl
  lookupFunction := by
    rintro s s' name args args' ⟨hcall, halike⟩ h
    have hargs : args'.map Expr.asWritten = args.map Expr.asWritten := by
      rw [Expr.asWritten, Expr.asWritten, Expr.asWrittenIn_eq_map, Expr.asWrittenIn_eq_map] at halike
      exact (Expr.call.inj halike).2
    have hfound := h.findFunction name
    generalize hfind : s.functions.find? name = found at hfound ⊢
    generalize s'.functions.find? name = found' at hfound ⊢
    cases hfound with
    | none => exact .none
    | @some fn fn' hfn =>
        exact .some ⟨(congrArg Function.name hfn :), (congrArg Function.isHost hfn :),
          rewriting_callables h hfind hfn hcall hargs⟩
  each h := h.1
  target := rewriting_target
  define := rewriting_define

/-- The unit and the call that it is written as take one evaluation without nested ones. -/
theorem evaluateStep_unit (h : s.NamesBuiltin .doAll "do") (he : e.asWritten = .call "do" [])
    (ev : Evaluator) : evaluateStep ev e s = .ok (.expr .void) s := by
  obtain ⟨rfl, -, -⟩ | ⟨args, rfl, hargs⟩ := Expr.asWritten_eq_call_iff.mp he
  · rfl
  · obtain rfl := List.map_eq_nil_iff.mp hargs
    obtain ⟨fn, hfind, hbody⟩ := h
    have hraw : fn.callRaw ev [] s = .ok (.expr .void) s := by
      unfold Function.callRaw
      rw [hbody]
      rfl
    obtain ⟨hr, hf⟩ := Action.eq_ok_iff.mp hraw
    rw [evaluateStep_call hfind, Action.eq_ok_iff, Function.result_call, Function.final_call, hr, hf]
    refine ⟨?_, rfl⟩
    unfold Function.seen
    split_ifs <;> rfl

theorem rewriting_heads (h : (rewriting origin).trees e e') (he : e.asWritten ≠ .call "do" []) :
    (rewriting origin).Heads e e' := by
  obtain ⟨hretains, halike⟩ := h
  cases e with
  | void => exact absurd rfl he
  | int _ | string _ =>
      cases e' <;> cases halike
      exact .literal _ rfl
  | var name =>
      rw [Expr.asWritten_eq_var_iff.mp halike]
      exact .var name
  | call name args =>
      rw [Expr.asWritten, Expr.asWrittenIn_eq_map] at halike he
      obtain ⟨-, hname, hargs⟩ | ⟨args', rfl, hargs⟩ := Expr.asWritten_eq_call_iff.mp halike
      · rw [hname, hargs] at he
        exact absurd rfl he
      · exact .call name (rewriting_args (retains_call_iff.mp hretains).2 hargs)

theorem rewriting_evaluate (h : (rewriting origin).trees e e') :
    (rewriting origin).relation.Relates (HostValue.IsValue fun _ => True) (evaluate e)
      (evaluate e') := by
  have L := @rewriting_lawful origin
  refine L.evaluate rewriting_inStep (fun hev e e' h => ?_) h
  by_cases he : e.asWritten = .call "do" []
  · intro s s' hstates
    exact .of_ok (.inl ⟨.void, rfl, rfl⟩) hstates (evaluateStep_unit hstates.unit he _)
      (evaluateStep_unit hstates.unit' (h.2.trans he) _)
  · exact L.evaluateStep hev h (rewriting_heads h he)

end Rewriting

/-- Values that are written alike are the same, since the call is no value. -/
theorem HostValue.IsValue.eq_of_asWritten {plain : HostValue → Prop} {v v' : HostValue}
    (hv : v.IsValue plain) (hv' : v'.IsValue plain) (h : v'.asWritten = v.asWritten) : v' = v := by
  obtain ⟨e, he, rfl⟩ | ⟨hplain, -⟩ := hv
  · obtain ⟨e', he', rfl⟩ | ⟨hplain, -⟩ := hv'
    · cases e with
      | void | int _ | string _ =>
          cases e' with
          | call _ _ | var _ => cases he'
          | _ => cases h <;> rfl
      | _ => cases he
    · cases v' with
      | expr e' => cases hplain
      | _ => cases h
  · cases v with
    | expr e => cases hplain
    | _ =>
        cases v' <;> cases h
        rfl

namespace Session.Rewrites

variable {origin s s' : Session}

theorem refl (hf : origin.Follows .selfContained) (hdo : origin.NamesBuiltin .doAll "do")
    (htrees : origin.Trees (origin.Retains "do")) : origin.Rewrites origin origin where
  follows := hf
  trees := htrees
  builtins _ fn _ hfind hb := ⟨fn, hfind, hb⟩
  unit := hdo
  kept _ hname := ⟨hname, rfl⟩
  alike := rfl

theorem vars_eq (h : origin.Rewrites s s') (hbinds : origin.BindsValues s)
    (hbinds' : origin.BindsValues s') : s'.vars = s.vars := by
  refine Table.eq_of_find?_eq ?_ fun name => ?_
  · rw [← Table.names_map, h.vars, Table.names_map]
  · by_cases hname : origin.vars.contains name = true
    · exact (h.kept name hname).2
    · have hfound := h.findVar name
      have hnew : origin.vars.find? name = none := by simpa [Table.contains] using hname
      generalize hfind : s.vars.find? name = found at hfound ⊢
      generalize hfind' : s'.vars.find? name = found' at hfound ⊢
      cases hfound with
      | none => rfl
      | @some v v' hv =>
          have hvalue := (hbinds.bound name v hfind).resolve_left (by simp [hnew])
          have hvalue' := (hbinds'.bound name v' hfind').resolve_left (by simp [hnew])
          rw [hvalue.eq_of_asWritten hvalue' hv]

end Session.Rewrites

/-- A tree that is written as a whole text is read as all there is, with a call of `do` in place of
every unit. -/
theorem Expr.ofText_written {limit : Int} {sourceName : Option String} {e : Expr} {text : String}
    (hname : e.Every NameSpelled) (hquotes : e.Every Unquoted) (hnesting : e.nesting ≤ limit)
    (hwritten : e.written = .ok text) :
    (Program.ofText limit text sourceName).exprs = [e.asWritten] ∧
      (Program.ofText limit text sourceName).error = none ∧
      ∃ after more, (Cursor.ofText text sourceName).readExpr ⟨limit, 0⟩ =
        .value e.asWritten after more := by
  let cursor := Cursor.ofText text sourceName
  have hfinish := (cursor.past cursor.rest []).reaches_self.finished (by simp)
  have hallows : Nesting.Allows ⟨limit, 0⟩ 0 e.asWritten := by
    simp only [Nesting.Allows, nesting_asWritten]
    omega
  have hread := read_written hname hquotes hwritten hallows cursor.reaches_rest
    (by simp [TokenKind.stopsAt_nil]) fun _ => by rw [hfinish]; trivial
  refine ⟨?_, ?_, _, _, hread⟩
  · refine (Program.exprs_of_value hread).trans ?_
    rw [hfinish, Program.exprs_of_nothing rfl]
  · rw [Cursor.readExpr] at hread
    refine Program.error_ofStream.trans ?_
    rw [hread, Reading.errorOnward, hfinish, Program.error_ofStream]
    rfl

/-- A tree is read from its written form with a call of `do` in place of every unit, and as long as
`do` keeps its meaning, nothing is lost by that: the evaluation comes to the same value or to an error
of the same class, emits the same and leaves the same variables. -/
theorem Expr.evaluate_reread (limit : Int) (sourceName : Option String) (e : Expr)
    (hname : e.Every NameSpelled) (hquotes : e.Every Unquoted) (hnesting : e.nesting ≤ limit) :
    (∃ text, e.written = .ok text ∧
      (Program.ofText limit text sourceName).exprs = [e.asWritten] ∧
      (Program.ofText limit text sourceName).error = none ∧
      ∃ after more, (Cursor.ofText text sourceName).readExpr ⟨limit, 0⟩ =
        .value e.asWritten after more) ∧
    ∀ s : Session, s.Follows .selfContained → s.NamesBuiltin .doAll "do" → s.Retains "do" e →
      s.Trees (s.Retains "do") →
      ((evaluate e.asWritten).result s).mapError Fault.name =
        ((evaluate e).result s).mapError Fault.name ∧
      ((evaluate e.asWritten).final s).output = ((evaluate e).final s).output ∧
      ((evaluate e.asWritten).final s).vars = ((evaluate e).final s).vars := by
  constructor
  · obtain ⟨text, hwritten⟩ := (exists_written_iff e).mpr (hquotes.imp fun _ => quotable_of_unquoted)
    exact ⟨text, hwritten, ofText_written hname hquotes hnesting hwritten⟩
  · intro s hf hdo hretains htrees
    have hmeets := rewriting_evaluate ⟨hretains, asWritten_asWritten e⟩ s s
      (.refl hf hdo htrees)
    obtain ⟨hcut, -⟩ | ⟨hends, hrewrites⟩ := hmeets
    · exact hcut.elim
    · refine ⟨?_, congrArg List.reverse (rewriting_inStep.emitted hrewrites), ?_⟩
      · generalize (evaluate e).result s = r at hends
        generalize (evaluate e.asWritten).result s = r' at hends
        cases hends with
        | ok _ => rfl
        | error hakin => exact congrArg Except.error hakin.name
      · have L := Discipline.bindingValues_lawful
        exact hrewrites.vars_eq (L.evaluate e s hf).2.1 (L.evaluate e.asWritten s hf).2.1

/-- A session with a function that binds the value of its argument. -/
def Session.withKeep : Session :=
  (((fresh ⟨5, 200, none, none⟩).install "do" (.ofBuiltin .doAll)).install "let"
    (.ofBuiltin .letVar)).install "keep" (.ofDefined ⟨"keep", ["x"], .call "let" [.var "y", .var "x"]⟩)

theorem Session.withKeep_not_redefines (name : String) (e : Expr) : ¬ withKeep.Redefines name e := by
  rintro ⟨head, _, _, -, fn, hfind, hb⟩
  simp only [withKeep, install, fresh, Table.find?_insert, Table.find?_empty] at hfind
  split_ifs at hfind <;> cases hfind <;> cases hb

theorem Session.withKeep_trees : withKeep.Trees (withKeep.Retains "do") where
  bound := nofun
  bodies name fn d hfind hd := by
    simp only [withKeep, install, fresh, Table.find?_insert, Table.find?_empty] at hfind
    split_ifs at hfind
    all_goals cases hfind
    all_goals cases hd
    exact ⟨withKeep_not_redefines _ _, withKeep_not_redefines _ _, withKeep_not_redefines _ _, trivial⟩

/-- The unit as an argument is read as a call, and bound as the unit all the same. -/
theorem Expr.evaluate_reread_keep :
    (Expr.call "keep" [.void]).written = .ok "keep(do())" ∧
    (Program.ofText 200 "keep(do())" none).exprs = [.call "keep" [.call "do" []]] ∧
    ((evaluate (.call "keep" [.call "do" []])).final withKeep).vars =
      ((evaluate (.call "keep" [.void])).final withKeep).vars ∧
    ((evaluate (.call "keep" [.void])).final withKeep).vars.find? "y" = some (.expr .void) := by
  have hname : (Expr.call "keep" [.void]).Every NameSpelled :=
    ⟨⟨by decide, by simp; decide⟩, trivial, trivial⟩
  have hwritten : (Expr.call "keep" [.void]).written = .ok "keep(do())" := by cbv
  have hretains : withKeep.Retains "do" (.call "keep" [.void]) :=
    ⟨withKeep_not_redefines _ _, withKeep_not_redefines _ _, trivial⟩
  have hfollows : withKeep.Follows .selfContained :=
    (((Follows.fresh _).install (Function.follows_ofBuiltin _ _)).install
      (Function.follows_ofBuiltin _ _)).install trivial
  have hbound : ((evaluate (.call "keep" [.void])).final withKeep).vars.find? "y" =
      some (.expr .void) := by cbv
  obtain ⟨⟨text, htext, hexprs, -⟩, heval⟩ := evaluate_reread 200 none (.call "keep" [.void]) hname
    ⟨trivial, trivial, trivial⟩ (by decide)
  obtain rfl := Except.ok.inj (htext.symm.trans hwritten)
  have hvars := (heval withKeep hfollows ⟨_, rfl, rfl⟩ hretains withKeep_trees).2.2
  exact ⟨hwritten, hexprs, hvars, hbound⟩

end MacroScript
