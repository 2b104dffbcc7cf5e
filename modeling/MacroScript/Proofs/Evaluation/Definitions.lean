import MacroScript.Proofs.Evaluation.Simulation
import MacroScript.Proofs.Scope.Steps
import MacroScript.Proofs.Table

/-!
# What a definition does

Which definitions are accepted, which function they make, and what becomes of
the session. Of two definitions in runs that correspond it is enough to compare
the functions that they make.
-/
namespace MacroScript

namespace Builtin

variable {target params body : Expr} {d : DefinedFn} {fault : Fault}

theorem parameterNames_eq_ok_iff {seen names : List String} {params : List Expr} :
    parameterNames seen params = .ok names ↔ ∃ fresh : List String,
      params = fresh.map .var ∧ names = seen ++ fresh ∧ fresh.Nodup ∧ ∀ name ∈ fresh, name ∉ seen := by
  induction params generalizing seen with
  | nil => simp [parameterNames, eq_comm]
  | cons param params ih =>
      cases param with
      | var name =>
          rw [parameterNames]
          by_cases hseen : name ∈ seen
          · simp only [List.contains_iff_mem, hseen, if_true, reduceCtorEq, false_iff]
            rintro ⟨_ | ⟨first, fresh⟩, hparams, -, -, hnew⟩
            · cases hparams
            · cases hparams
              exact hnew _ (by simp) hseen
          · simp only [List.contains_iff_mem, hseen, if_false, ih]
            constructor
            · rintro ⟨fresh, rfl, rfl, hnodup, hnew⟩
              refine ⟨name :: fresh, rfl, by simp, List.nodup_cons.mpr ⟨fun hmem => ?_, hnodup⟩, ?_⟩
              · exact hnew name hmem (by simp)
              · rw [List.forall_mem_cons]
                exact ⟨hseen, fun other hother hmem => hnew other hother (by simp [hmem])⟩
            · rintro ⟨_ | ⟨first, fresh⟩, hparams, rfl, hnodup, hnew⟩
              · cases hparams
              · cases hparams
                rw [List.nodup_cons] at hnodup
                rw [List.forall_mem_cons] at hnew
                refine ⟨fresh, rfl, by simp, hnodup.2, fun other hother hmem => ?_⟩
                rcases List.mem_append.mp hmem with hmem | hmem
                · exact hnew.2 other hother hmem
                · exact hnodup.1 (List.mem_singleton.mp hmem ▸ hother)
      | _ =>
          simp only [parameterNames, reduceCtorEq, false_iff]
          rintro ⟨_ | ⟨first, fresh⟩, hparams, -⟩ <;> cases hparams

theorem formals_eq_ok_iff {names : List String} :
    formals params = .ok names ↔ params = .call "args" (names.map .var) ∧ names.Nodup := by
  unfold formals
  split
  · rw [parameterNames_eq_ok_iff]
    constructor
    · rintro ⟨fresh, rfl, rfl, hnodup, -⟩
      exact ⟨rfl, hnodup⟩
    · rintro ⟨hparams, hnodup⟩
      cases hparams
      exact ⟨names, rfl, rfl, hnodup, by simp⟩
  · rename_i hparams
    simp only [reduceCtorEq, false_iff]
    rintro ⟨rfl, -⟩
    exact hparams _ rfl

theorem definition_eq_ok_iff : definition target params body = .ok d ↔
    target = .var d.name ∧ params = .call "args" (d.formals.map .var) ∧ d.formals.Nodup ∧
      d.body = body := by
  cases target with
  | var name =>
      unfold definition
      cases hformals : formals params with
      | ok names =>
          obtain ⟨rfl, hnodup⟩ := formals_eq_ok_iff.mp hformals
          simp only [Except.map, Except.ok.injEq]
          constructor
          · rintro rfl
            exact ⟨rfl, rfl, hnodup, rfl⟩
          · rintro ⟨hname, hparams, -, rfl⟩
            obtain ⟨_, formals, _⟩ := d
            cases hname
            have hnames : names = formals :=
              List.map_injective_iff.mpr (fun _ _ => Expr.var.inj) (Expr.call.inj hparams).2
            rw [hnames]
      | error fault =>
          simp only [Except.map, reduceCtorEq, false_iff]
          rintro ⟨-, hparams, hnodup, -⟩
          rw [formals_eq_ok_iff.mpr ⟨hparams, hnodup⟩] at hformals
          cases hformals
  | _ => simp [definition]

theorem parameterNames_error {seen : List String} {params : List Expr}
    (h : parameterNames seen params = .error fault) :
    ∃ error, fault = .eval error ∧ error.kind = .argumentName := by
  induction params generalizing seen with
  | nil => cases h
  | cons param params ih =>
      cases param with
      | var name =>
          rw [parameterNames] at h
          split_ifs at h
          · cases h
            exact ⟨_, rfl, rfl⟩
          · exact ih h
      | _ =>
          cases h
          exact ⟨_, rfl, rfl⟩

theorem definition_error (h : definition target params body = .error fault) :
    ∃ error, fault = .eval error ∧ error.kind = .argumentName := by
  cases target with
  | var name =>
      unfold definition at h
      cases hformals : formals params with
      | ok names =>
          rw [hformals] at h
          cases h
      | error fault' =>
          rw [hformals] at h
          cases h
          unfold formals at hformals
          split at hformals
          · exact parameterNames_error hformals
          · cases hformals
            exact ⟨_, rfl, rfl⟩
  | _ =>
      cases h
      exact ⟨_, rfl, rfl⟩

end Builtin

namespace Session

open MacroScript.Action

variable {s : Session} {target params body : Expr} {d : DefinedFn} {fault : Fault}

/-- The session once a function was made: it is kept in the arena and installed. -/
def defining (s : Session) (d : DefinedFn) : Session :=
  { s with
    arena := { s.arena with
      used := s.arena.used + d.size
      kept := s.arena.kept ++ [.defined d] }
    functions := s.functions.insert d.name (.ofDefined d) }

theorem of_findFunction_defining {name : String} {fn : Function}
    (h : (s.defining d).functions.find? name = some fn) :
    (name = d.name ∧ fn = .ofDefined d) ∨ s.functions.find? name = some fn :=
  Table.of_find?_insert h

theorem findFunction_defining (s : Session) (d : DefinedFn) :
    (s.defining d).functions.find? d.name = some (.ofDefined d) :=
  (Table.find?_insert ..).trans (if_pos rfl)

theorem findFunction_defining_of_ne {name : String} (h : name ≠ d.name) :
    (s.defining d).functions.find? name = s.functions.find? name :=
  (Table.find?_insert ..).trans (if_neg h)

/-- All trees that variables are bound to and all bodies of defined functions have a property. -/
structure Trees (s : Session) (p : Expr → Prop) : Prop where
  bound : ∀ name e, s.vars.find? name = some (.expr e) → p e
  bodies : ∀ name fn d, s.functions.find? name = some fn → fn.body = .defined d → p d.body

namespace Trees

variable {p : Expr → Prop} {name : String} {e : Expr} (h : s.Trees p)
include h

theorem insert (he : p e) : Trees { s with vars := s.vars.insert name (.expr e) } p where
  bound other e' hfind := by
    obtain ⟨-, heq⟩ | hfind := Table.of_find?_insert hfind
    · exact HostValue.expr.inj heq ▸ he
    · exact h.bound other e' hfind
  bodies := h.bodies

theorem erase : Trees { s with vars := s.vars.erase name } p where
  bound other e' hfind := h.bound other e' (Table.of_find?_erase hfind)
  bodies := h.bodies

theorem defining (hbody : p d.body) : (s.defining d).Trees p where
  bound := h.bound
  bodies other fn d' hfind hd' := by
    obtain ⟨-, rfl⟩ | hfind := of_findFunction_defining hfind
    · cases hd'
      exact hbody
    · exact h.bodies other fn d' hfind hd'

end Trees

theorem callDefine_error (h : Builtin.definition target params body = .error fault) :
    Builtin.callDefine target params body s = .error fault s := by
  unfold Builtin.callDefine
  rw [h]
  rfl

/-- A definition that is accepted fails only for lack of room in the arena. -/
theorem callDefine_eq (h : Builtin.definition target params body = .ok d) :
    Builtin.callDefine target params body s =
      if s.arena.allows (s.arena.used + d.size) then .ok (.expr .void) (s.defining d)
      else .error (s.arena.exhausted (s.arena.used + d.size)) s := by
  have hmade : Builtin.callDefine target params body s =
      (do
        onArena (Scope.keep (.defined d) d.size)
        modify fun session => session.install d.name (.ofDefined d)
        return .expr .void : Action Session HostValue) s := by
    unfold Builtin.callDefine
    rw [h]
    rfl
  have hkeep := @Scope.keep_eq s.arena d.size (.defined d)
  rw [hmade]
  split_ifs at hkeep ⊢ with hallows
  · have hkept := onArena_ok hkeep
    rw [bind_ok (eq_ok_iff.mp hkept).1, (eq_ok_iff.mp hkept).2]
    rfl
  · have hkept := onArena_error hkeep
    rw [bind_error (eq_error_iff.mp hkept).1, (eq_error_iff.mp hkept).2]

end Session

open Session

/-- Where there is room, a call of a builtin does what the builtin does, one level deeper. -/
theorem evaluate_builtin_of_room {s : Session} {b : Builtin} {name : String} {args : List Expr}
    (hfind : s.functions.find? name = some (.ofBuiltin b)) (hroom : s.depth < s.maxDepth) :
    evaluate (.call name args) s =
      (b.call (evaluateWith { s with depth := s.depth + 1 : Session }.levels) args).ensuring leave
        { s with depth := s.depth + 1 } := by
  have hcall := evaluateStep_call (s := { s with depth := s.depth + 1 }) hfind
  rw [evaluate_of_room hroom]
  unfold Action.ensuring
  rw [hcall]
  rfl

theorem evaluate_builtin_ok {s t : Session} {b : Builtin} {name : String} {args : List Expr}
    {v : HostValue} (hfind : s.functions.find? name = some (.ofBuiltin b))
    (h : evaluate (.call name args) s = .ok v t) :
    ∃ ev u, b.call ev args { s with depth := s.depth + 1 } = .ok v u ∧
      t = { u with depth := u.depth - 1 } := by
  obtain ⟨-, u, hstep, rfl⟩ := evaluate_ok h
  have hcall := evaluateStep_call (s := { s with depth := s.depth + 1 }) hfind
  rw [hcall] at hstep
  exact ⟨_, u, hstep, rfl⟩

/-- A call of the builtin for definitions that ends in a value makes a function as it is spelled. -/
theorem evaluate_define_ok {s t : Session} {name : String} {args : List Expr} {v : HostValue}
    (hfind : s.functions.find? name = some (.ofBuiltin .define))
    (h : evaluate (.call name args) s = .ok v t) :
    ∃ d : DefinedFn, args = [.var d.name, .call "args" (d.formals.map .var), d.body] ∧
      t = s.defining d := by
  obtain ⟨ev, u, hcall, rfl⟩ := evaluate_builtin_ok hfind h
  rcases args with _ | ⟨target, _ | ⟨params, _ | ⟨body, _ | ⟨arg, args⟩⟩⟩⟩
  · cases hcall
  · cases hcall
  · cases hcall
  · cases hmade : Builtin.definition target params body with
    | ok d =>
        obtain ⟨rfl, rfl, -, rfl⟩ := Builtin.definition_eq_ok_iff.mp hmade
        refine ⟨d, rfl, ?_⟩
        change Builtin.callDefine _ _ _ _ = _ at hcall
        rw [callDefine_eq hmade] at hcall
        split_ifs at hcall
        cases hcall
        simp [defining]
    | error fault =>
        change Builtin.callDefine _ _ _ _ = _ at hcall
        rw [callDefine_error hmade] at hcall
        cases hcall
  · cases hcall

namespace Simulation

variable {S : Simulation}

/-- The functions that two definitions make leave sessions that correspond, or the faults do. -/
inductive Makes (S : Simulation) : Except Fault DefinedFn → Except Fault DefinedFn → Prop
  | ok {d d' : DefinedFn} : d'.size = d.size →
      (∀ s s', S.states s s' → S.states (s.defining d) (s'.defining d')) → Makes S (.ok d) (.ok d')
  | error {fault fault' : Fault} : S.cut ∨ S.faults fault fault' →
      Makes S (.error fault) (.error fault')

/-- Two definitions correspond if the functions that they make do and the arenas have the same
room. -/
theorem relates_callDefine {target params body target' params' body' : Expr}
    (hsame : S.cut ∨ ∀ fault, S.faults fault fault)
    (harena : ∀ s s', S.states s s' → s'.arena.name = s.arena.name ∧
      s'.arena.limit = s.arena.limit ∧ s'.arena.used = s.arena.used)
    (h : S.Makes (Builtin.definition target params body)
      (Builtin.definition target' params' body')) :
    S.relation.Relates (HostValue.IsValue fun _ => True)
      (Builtin.callDefine target params body) (Builtin.callDefine target' params' body') := by
  intro s s' hstates
  generalize hmade : Builtin.definition target params body = made at h
  generalize hmade' : Builtin.definition target' params' body' = made' at h
  cases h with
  | @ok d d' hsize hdefining =>
      obtain ⟨hname, hlimit, hused⟩ := harena _ _ hstates
      have hcall := @callDefine_eq s _ _ _ _ hmade
      have hcall' := @callDefine_eq s' _ _ _ _ hmade'
      have hallows : s'.arena.allows (s'.arena.used + d'.size) =
          s.arena.allows (s.arena.used + d.size) := by
        rw [hsize, hused]
        unfold Scope.allows
        rw [hlimit]
      have hfault : s'.arena.exhausted (s'.arena.used + d'.size) =
          s.arena.exhausted (s.arena.used + d.size) := by
        rw [hsize, hused]
        unfold Scope.exhausted
        rw [hname, hlimit]
      rw [hallows, hfault] at hcall'
      split_ifs at hcall hcall'
      · exact .of_ok (.inl ⟨.void, rfl, rfl⟩) (hdefining _ _ hstates) hcall hcall'
      · exact .of_error hsame hstates hcall hcall'
  | @error fault fault' hfaults =>
      have hcall := @callDefine_error s _ _ _ _ hmade
      have hcall' := @callDefine_error s' _ _ _ _ hmade'
      obtain ⟨hr, hf⟩ := Action.eq_error_iff.mp hcall
      obtain ⟨hr', hf'⟩ := Action.eq_error_iff.mp hcall'
      unfold Meets
      rw [hr, hf, hr', hf']
      obtain hcut | hfaults := hfaults
      · exact .inl ⟨hcut, fault, rfl⟩
      · exact .inr ⟨.error hfaults, hstates⟩

end Simulation

end MacroScript
