import MacroScript.Proofs.Evaluation.Congruence
import MacroScript.Proofs.Evaluation.Coupling

/-!
# From nested evaluations to evaluations

If the nested evaluations of two evaluators meet, then so do the calls of
functions of every kind, the runs of texts and the evaluations that are made of
them. For the builtins this is so because they respect every such relation. The
induction for evaluations is on the stock of levels; for host programs it is on
the tree of requests.
-/
namespace MacroScript

namespace Function

variable (ev : Evaluator) (fn : Function) (args : List Expr) (s : Session)

theorem result_call : (fn.call ev args).result s = fn.seen ((fn.callRaw ev args).result s) := by
  unfold call seen
  cases fn.isHost with
  | false => cases h : (fn.callRaw ev args).result s <;> simpa using h
  | true =>
      simp only [if_true]
      rw [Action.result_bind_ok Action.result_attempt]
      cases (fn.callRaw ev args).result s <;> simp

theorem final_call : (fn.call ev args).final s = (fn.callRaw ev args).final s := by
  unfold call
  cases fn.isHost with
  | false => simp
  | true =>
      simp only [if_true]
      rw [Action.final_bind_ok Action.result_attempt, Action.final_attempt]
      cases (fn.callRaw ev args).result s <;> simp

end Function

namespace Coupling

section Runs

variable {C : Coupling} {D : Discipline} {rules : HostRules} {ev ev' : Evaluator} (hC : C.Suits D)
  (htop : ∀ e, C.Both D rules rules.value (ev.evaluateTop e) (ev'.evaluateTop e))
  (hmalformed : ∀ error, rules.fault (.malformed error))
include hC htop

theorem evaluateEach_both (es : List Expr) :
    C.Both D rules (fun values => ∀ v ∈ values, rules.value v) (ev.evaluateEach es)
      (ev'.evaluateEach es) := by
  induction es with
  | nil => exact .pure (List.forall_mem_nil _)
  | cons e es ih =>
      refine .bind hC (htop e) fun value hvalue => ?_
      exact .bind hC ih fun values hvalues => .pure (List.forall_mem_cons.mpr ⟨hvalue, hvalues⟩)

include hmalformed

theorem run_both (text : String) (sourceName : Option String) :
    C.Both D rules rules.RunValue (ev.run text sourceName) (ev'.run text sourceName) := by
  refine Couples.read (fun _ _ => rfl) fun s => ?_
  refine Both.bind hC (evaluateEach_both hC htop _) fun values hvalues => ?_
  split
  · exact .throw (hmalformed _)
  · exact .pure ⟨values, hvalues, rfl⟩

/-- The faults that are left have no text for the user. -/
theorem execute_couples (hcut : ∀ fault, ¬ C.cut fault) (text : String) (sourceName : Option String) :
    C.Couples D (fun e => ∀ fault, e = .error fault →
      rules.fault fault ∧ Evaluator.shownFault? fault = none)
      (ev.execute text sourceName) (ev'.execute text sourceName) := by
  refine Couples.attempt_bind hC (run_both hC htop hmalformed text sourceName) hcut
    fun answer hanswer => ?_
  cases answer with
  | ok value => exact .pure nofun
  | error fault =>
      dsimp only
      split
      · exact .pure nofun
      · rename_i hshown
        refine .throw ?_
        rintro _ ⟨⟩
        exact ⟨hanswer, hshown⟩

end Runs

def relation (C : Coupling) (D : Discipline) (rules : HostRules) : ActionRelation where
  Relates kind a b := C.Both D rules kind a b

theorem relation_closed {C : Coupling} {D : Discipline} {rules : HostRules} (h : C.Suits D) :
    (C.relation D rules).Closed rules where
  pure hv := .pure hv
  throw hfault := .throw hfault
  bind hab hnext := .bind h hab hnext

open MacroScript.Action Session

/-- A definition is refused under all limits alike, up to the room in the arena. -/
theorem meet_callDefine {C : Coupling} (hC : C.Lawful) {s : Session} (hs : C.admits s.limits)
    {target params body : Expr} :
    C.Meet (Builtin.callDefine target params body) (Builtin.callDefine target params body) s := by
  have hmade : C.Agree (Action.ofExcept (Builtin.definition target params body))
      (Action.ofExcept (Builtin.definition target params body)) s := by
    rw [Agree, result_ofExcept, result_ofExcept, final_ofExcept, final_ofExcept]
    exact ⟨rfl, rfl⟩
  refine meet_of_agree hmade fun fn _ => ?_
  rw [final_ofExcept]
  have hkept := meet_onArena hC hs (Scope.upToLimit_keep (.defined fn) fn.size)
  obtain hagree | ⟨fault, hcut, hr, hahead⟩ := hkept
  · exact meet_of_agree hagree fun _ _ => .inl ⟨rfl, rfl⟩
  · -- Installing the function emits nothing, so the other run is no further ahead.
    refine meet_of_error hC.trans (.inr ⟨fault, hcut, hr, hahead⟩) hr ?_
    cases hr' : (onArena (Scope.keep (.defined fn) fn.size)).result (C.other s) with
    | ok _ => exact final_bind_ok hr' ▸ List.suffix_refl _
    | error _ => exact final_bind_error hr' ▸ List.suffix_refl _

namespace Lifts

variable {C : Coupling} {D : Discipline} {rules : HostRules} {inside : BufferId → Discipline}
  {ev ev' : Evaluator} (T : C.Lifts D rules inside) (hev : C.Matches D rules ev ev')
include T hev

section Builtins

omit hev in
theorem setValue {v : HostValue} (name : String) (hv : rules.value v) :
    C.Both D rules (fun _ => True) (Session.setValue name v) (Session.setValue name v) := by
  cases v with
  | expr e =>
      exact .step ((T.discipline.setVar name e (.inr hv)).andEnds fun _ => trivial)
        fun _ _ _ => .inl ⟨rfl, rfl⟩
  | _ => exact .throw (T.discipline.notBindable _ hv rfl name)

omit hev in
theorem callDefine (target params body : Expr) :
    C.Both D rules rules.value (Builtin.callDefine target params body)
      (Builtin.callDefine target params body) :=
  .step (T.discipline.define target params body) fun _ _ hadmits => meet_callDefine T.coupling hadmits

omit hev in
/-- The builtins respect that runs meet. Both runs evaluate the same arguments. -/
theorem congruence : (C.relation D rules).Congruence (fun id => C.relation (inside id) rules) rules
    Eq (fun _ args args' => args' = args) fun _ => True where
  ownEnds := T.discipline.ownEnds
  closed := relation_closed T.suits
  closedInside id := relation_closed (T.suitsInside id)
  inner id h := T.matchesInside (fun _ => _) (fun _ => _) (fun _ => h) id .void
  each := by
    rintro b args _ rfl
    exact List.forall₂_refl _
  target := by
    rintro target _ e _ ⟨⟩
    refine Couples.ofExcept ?_
    cases target <;> first | trivial | exact T.discipline.ownError _ rfl
  setValue _ hv := T.setValue _ hv
  define := by
    rintro target params body _ _ _ ⟨⟩
    exact T.callDefine target params body
  emit text := .step ((T.discipline.emit text).andEnds fun _ => trivial)
    fun _ _ _ => .inl ⟨rfl, rfl⟩
  withBuffer h := T.withBuffer _ _ _ h
  write id text := .step (T.discipline.write id text) fun _ _ hadmits =>
    meet_onScratch T.coupling hadmits (Scope.upToLimit_write id text)
  contents id := .step (T.discipline.contents id) fun _ _ hadmits =>
    meet_onScratch T.coupling hadmits (Scope.upToLimit_contents id)
  size _ _ h := Couples.read (fun _ _ => rfl) fun s => h _

theorem callBuiltin (b : Builtin) (args : List Expr) :
    C.Both D rules rules.value (b.call ev args) (b.call ev' args) :=
  T.congruence.callBuiltin (fun h => h ▸ hev _) b rfl

end Builtins

theorem evaluateTop (h : rules.atTop) (e : Expr) :
    C.Both D rules rules.value (ev.evaluateTop e) (ev'.evaluateTop e) :=
  T.top h _ _ (hev e)

theorem execute (h : rules.atTop) (hcut : ∀ fault, ¬ C.cut fault) (text : String)
    (sourceName : Option String) :
    C.Both D rules (fun _ => True) (ev.execute text sourceName) (ev'.execute text sourceName) := by
  refine Couples.imp (execute_couples T.suits (T.evaluateTop hev h) (T.discipline.malformed h) hcut
    text sourceName) fun e he => ?_
  cases e with
  | ok shown => trivial
  | error fault => exact (he fault rfl).1

/-- A host program that follows the rules. What cuts a run short must not come to a host, which
might go on after it. -/
theorem perform (hsame : ∀ limits, C.admits limits → C.limits limits = limits)
    (hcut : ∀ fault, ¬ C.cut fault) {ends : Except Fault HostValue → Prop} (p : HostProgram)
    (hp : p.Obeys rules ends) : C.Couples D ends (p.perform ev) (p.perform ev') := by
  induction p with
  | done result => exact .pure hp
  | fail fault => exact .throw hp
  | evaluate e next ih =>
      exact .attempt_bind T.suits (hev e) hcut fun answer h => ih answer (hp answer h)
  | evaluateTop e next ih =>
      exact .attempt_bind T.suits (T.evaluateTop hev hp.1 e) hcut
        fun answer h => ih answer (hp.2 answer h)
  | run text sourceName next ih =>
      exact .attempt_bind T.suits
        (run_both T.suits (T.evaluateTop hev hp.1) (T.discipline.malformed hp.1) text sourceName)
        hcut fun answer h => ih answer (hp.2 answer h)
  | execute text sourceName next ih =>
      exact .attempt_bind T.suits (T.execute hev hp.1 hcut text sourceName) hcut
        fun answer h => ih answer (hp.2 answer h)
  | resetScratch next ih =>
      refine .after T.suits (T.discipline.resetScratch hp.1) (fun _ => ⟨_, rfl⟩)
        (fun s hadmits => agree_of_limits (hsame _ hadmits) ?_) fun _ => ih hp.2
      simp [Session.limits]
  | close next ih =>
      refine .after T.suits (T.discipline.close hp.1) (fun _ => ⟨_, rfl⟩)
        (fun s hadmits => agree_of_limits (hsame _ hadmits) ?_) fun _ => ih hp.2
      simp [Session.limits, Session.closed]
  | observe next ih => exact .get_bind hsame fun s => ih s.view (hp s.view)
  | setVar name value next ih =>
      exact .after T.suits (T.discipline.setVar name value (.inl hp.1)) (fun _ => ⟨_, rfl⟩)
        (fun _ _ => ⟨rfl, rfl⟩) fun _ => ih hp.2
  | bindVar name value next ih =>
      have hends := (T.discipline.bindVar hp.1 name value).bindVar
      refine .attempt_bind T.suits (.step hends fun s _ hadmits =>
        .inl (agree_of_limits (hsame _ hadmits) limits_bindVar)) hcut ?_
      rintro _ (rfl | rfl)
      · exact ih _ hp.2.1
      · exact ih _ hp.2.2
  | unbindVar name next ih =>
      have hends := (T.discipline.unbindVar hp.1 name).unbindVar
      refine .attempt_bind T.suits (.step hends fun s _ hadmits =>
        .inl (agree_of_limits (hsame _ hadmits) limits_unbindVar)) hcut ?_
      rintro _ (rfl | rfl)
      · exact ih _ hp.2.1
      · exact ih _ hp.2.2

theorem callRaw {fn : Function} (hfn : fn.Follows rules) (args : List Expr)
    (hcut : fn.IsHosted → ∀ fault, ¬ C.cut fault) :
    C.Couples D (fun e => rules.Answers rules.value (fn.seen e)) (fn.callRaw ev args)
      (fn.callRaw ev' args) := by
  unfold Function.callRaw
  cases hbody : fn.body with
  | builtin b =>
      exact .imp (T.callBuiltin hev b args) fun e => T.discipline.ownEnds.answers_seen fn
  | defined defined =>
      exact .imp (T.callDefined _ _ hev defined args) fun e => T.discipline.ownEnds.answers_seen fn
  | hosted registration host =>
      have hhosted : fn.IsHosted := ⟨registration, host, hbody⟩
      refine .after T.suits (T.discipline.countCall registration) (fun _ => ⟨_, rfl⟩)
        (fun _ _ => ⟨rfl, rfl⟩) fun n => ?_
      exact T.perform hev (T.hosts (hfn.hosts hhosted)) (hcut hhosted) _ (hfn.obeys hbody n args)

theorem call {fn : Function} (hfn : fn.Follows rules) (args : List Expr)
    (hcut : fn.IsHosted → ∀ fault, ¬ C.cut fault) :
    C.Both D rules rules.value (fn.call ev args) (fn.call ev' args) := by
  have hraw := T.callRaw hev hfn args hcut
  refine ⟨fun s hs => ?_, fun s hs => ?_, fun s hs hadmits => ?_⟩
  · rw [Function.result_call, Function.final_call]
    exact hraw.left s hs
  · rw [Function.result_call, Function.final_call]
    exact hraw.right s hs
  · unfold Meet Agree Cut
    rw [Function.result_call, Function.final_call, Function.result_call, Function.final_call]
    obtain ⟨hr, hf⟩ | ⟨fault, hcut, hr, hahead⟩ := hraw.meet s hs hadmits
    · rw [hr, hf]
      exact .inl ⟨rfl, rfl⟩
    · refine .inr ⟨fault, hcut, ?_, hahead⟩
      rw [hr, Function.seen]
      split_ifs
      · rw [T.coupling.guarded fn.name fault hcut]
      · rfl

theorem evaluateBound (v : HostValue) (h : v.asExpr? = none → rules.value v) :
    C.Both D rules rules.value (MacroScript.evaluateBound ev v)
      (MacroScript.evaluateBound ev' v) := by
  cases v with
  | expr e => exact hev e
  | _ => exact T.nested (pure _) (pure _) (.pure (h rfl))

omit hev in
theorem lookupVar (name : String) :
    C.Both D rules (fun v => v.asExpr? = none → rules.value v) (lookupVar name)
      (lookupVar name) := by
  refine .step (fun s hs => ?_) fun s _ _ => .inl ?_
  · rw [final_lookupVar, result, lookupVar_eq]
    refine ⟨hs, D.refl s, ?_⟩
    cases hf : s.vars.find? name with
    | some v => exact T.discipline.bound s hs name v hf
    | none => exact T.discipline.ownError _ rfl
  · rw [Agree, final_lookupVar, final_lookupVar, result, result, lookupVar_eq, lookupVar_eq]
    have hvars : (C.other s).vars = s.vars := rfl
    rw [hvars]
    cases s.vars.find? name <;> exact ⟨rfl, rfl⟩

omit T hev in
theorem agree_lookupFunction (name : String) (s : Session) :
    C.Agree (lookupFunction name) (lookupFunction name) s := by
  rw [Agree, final_lookupFunction, final_lookupFunction, result, result, lookupFunction_eq,
    lookupFunction_eq]
  have hfunctions : (C.other s).functions = s.functions := rfl
  rw [hfunctions]
  cases s.functions.find? name <;> exact ⟨rfl, rfl⟩

omit hev in
theorem lookupFunction (name : String) :
    C.Both D rules (Function.Follows rules) (lookupFunction name) (lookupFunction name) := by
  refine .step (fun s hs => ?_) fun s _ _ => .inl (agree_lookupFunction name s)
  rw [final_lookupFunction, result, lookupFunction_eq]
  refine ⟨hs, D.refl s, ?_⟩
  cases hf : s.functions.find? name with
  | some fn => exact T.discipline.follows s hs name fn hf
  | none => exact T.discipline.ownError _ rfl

theorem evaluateStep
    (hcut : ∀ fn : Function, fn.Follows rules → fn.IsHosted → ∀ fault, ¬ C.cut fault) :
    C.Matches D rules (evaluateStep ev) (evaluateStep ev') := by
  intro e
  cases e with
  | var name => exact .bind T.suits (T.lookupVar name) fun v hv => T.evaluateBound hev v hv
  | call name args =>
      exact .bind T.suits (T.lookupFunction name) fun fn hfn => T.call hev hfn args (hcut fn hfn)
  | _ => exact .pure (T.discipline.literal _ rfl)

/-- The function that is called is the only one that matters to one step. -/
theorem meet_evaluateStep {s : Session} (hs : D.holds s) (hadmits : C.admits s.limits) (e : Expr)
    (hcut : ∀ name args fn, e = .call name args → s.functions.find? name = some fn →
      fn.IsHosted → ∀ fault, ¬ C.cut fault) :
    C.Meet (MacroScript.evaluateStep ev e) (MacroScript.evaluateStep ev' e) s := by
  cases e with
  | var name =>
      have h : C.Both D rules rules.value _ _ :=
        .bind T.suits (T.lookupVar name) fun v hv => T.evaluateBound hev v hv
      exact h.meet s hs hadmits
  | call name args =>
      refine meet_of_agree (agree_lookupFunction name s) fun fn hr => ?_
      have hfind : s.functions.find? name = some fn := by
        rw [result, lookupFunction_eq] at hr
        cases hf : s.functions.find? name with
        | some found =>
            rw [hf] at hr
            cases hr
            rfl
        | none =>
            rw [hf] at hr
            cases hr
      rw [final_lookupFunction]
      exact (T.call hev (T.discipline.follows s hs name fn hfind) args
        (hcut name args fn rfl hfind)).meet s hs hadmits
  | _ => exact .inl ⟨rfl, rfl⟩

end Lifts

end Coupling

end MacroScript
