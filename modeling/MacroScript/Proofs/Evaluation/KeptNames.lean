import MacroScript.Proofs.Evaluation.Bindings
import MacroScript.Proofs.Evaluation.Indifference

/-!
# No evaluation removes a variable

As long as no host function removes variables, what is bound stays bound through
every evaluation, and so the parameters of a defined function are there when its
call takes them back. A parameter that is bound already is refused, so the calls
in progress never have a parameter in common, and what one of them takes back
was not there before it.
-/
namespace MacroScript

/-- A binding was gone when it was to be removed: as raised, as wrapped by a host function, or as
what comes out where a fault is to be wrapped. -/
def Fault.IsVanished : Fault → Prop
  | .foreign (.bindingVanished _) => True
  | .eval (.hostFailed _ (.bindingVanished _)) => True
  | .unspeakable _ failure => failure.IsVanished
  | _ => False

theorem Fault.not_isVanished_eval {error : EvalError} (h : (Fault.eval error).reason? = none) :
    ¬ (Fault.eval error).IsVanished := by
  intro hv
  cases error with
  | hostFailed name reason => exact Option.some_ne_none _ h
  | _ => exact hv

theorem Function.not_isVanished_guardedFault (name : String) {fault : Fault}
    (h : ¬ fault.IsVanished) : ¬ (guardedFault name fault).IsVanished := by
  cases fault with
  | foreign reason =>
      simp only [guardedFault]
      split
      · cases reason <;> exact h
      · exact h
  | unspeakable kind failure =>
      simp only [guardedFault]
      split
      · exact h
      · exact h
  | _ => exact h

/-- Hosts may evaluate, and bind, set and read variables, but not remove any. -/
def HostRules.neverRemoving : HostRules where
  hosts := True
  value _ := True
  fault f := ¬ f.IsVanished
  atTop := True
  resets := True
  closes := False
  binds := True
  unbinds := False

theorem HostRules.neverRemoving_allowsScopeFaults : neverRemoving.AllowsScopeFaults where
  exhausted _ _ _ h := h
  closedBuffer h := h
  notKept h := h

theorem HostRules.neverRemoving_ownEnds : neverRemoving.AllowsOwnEnds where
  literal _ _ := trivial
  ownError _ := Fault.not_isVanished_eval
  accessor _ _ _ _ h := h
  notBindable _ _ _ _ h := h
  guarded name _ := Function.not_isVanished_guardedFault name

namespace Discipline

/-- Every name that is bound stays bound. -/
def keepingNames (rules : HostRules) : Discipline where
  holds s := s.Follows rules
  allows s t := ∀ name, s.vars.contains name = true → t.vars.contains name = true
  refl _ _ h := h
  trans hst htu name h := htu name (hst name h)

variable {rules : HostRules}

theorem keepingNames_ignoresScratch : (keepingNames rules).IgnoresScratch :=
  ⟨fun _ _ h => h, fun _ _ _ h => h⟩

theorem keepingNames_ignoresArena : (keepingNames rules).IgnoresArena :=
  ⟨fun _ _ h => h, fun _ _ _ h => h⟩

theorem keepingNames_ignoresDepth : (keepingNames rules).IgnoresDepth :=
  ⟨fun _ _ h => h, fun _ _ _ h => h⟩

theorem keepingNames_setVar (name : String) (value : HostValue) :
    (keepingNames rules).Permits (Session.setVar name value) :=
  .of_final fun _ hs => ⟨hs, fun _ h => (Table.contains_insert ..).mpr (.inr h)⟩

theorem keepingNames_bindVar (name : String) (value : HostValue) :
    (keepingNames rules).Permits (Session.bindVar name value) := by
  refine .of_final fun s hs => ?_
  unfold Action.final
  rw [Session.bindVar_eq]
  split_ifs
  · exact ⟨hs, (keepingNames rules).refl s⟩
  · exact ⟨hs, fun _ h => (Table.contains_insert ..).mpr (.inr h)⟩

/-- What a call took back was not bound before it. -/
theorem keepingNames_callDefined
    (hown : ∀ error, (Fault.eval error).reason? = none → rules.fault (.eval error))
    {ev : Evaluator} (hev : (keepingNames rules).Evaluates rules ev) (fn : DefinedFn)
    (args : List Expr) : (keepingNames rules).Keeps rules rules.value (fn.call ev args) := by
  refine callDefined_of_kept hown (fun _ _ h => h) (fun _ _ _ _ hs _ => hs) ?_ hev fn args
  exact fun _ _ _ _ _ hbound hholds hkept => ⟨hholds, hbound.kept hkept⟩

theorem keepingNames_lawful : (keepingNames .neverRemoving).Lawful .neverRemoving
    fun _ => keepingNames .neverRemoving where
  literal := HostRules.neverRemoving_ownEnds.literal
  ownError := HostRules.neverRemoving_ownEnds.ownError
  malformed _ _ h := h
  accessor := HostRules.neverRemoving_ownEnds.accessor
  notBindable := HostRules.neverRemoving_ownEnds.notBindable
  guarded := HostRules.neverRemoving_ownEnds.guarded
  bound _ _ _ _ _ _ := trivial
  follows _ hs := hs
  nested _ := keepingNames_ignoresDepth.nested fun _ h => h
  setVar name e _ := keepingNames_setVar name (.expr e)
  define := define_of_steps HostRules.neverRemoving_ownEnds
    (fun fn => keepingNames_ignoresArena.keep (fun _ _ _ h => h) (.defined fn) fn.size)
    fun _ => .of_final fun _ hs => ⟨hs.install trivial, fun _ h => h⟩
  emit _ := .of_final fun _ hs => ⟨hs, fun _ h => h⟩
  countCall _ := .of_final fun _ hs => ⟨hs, fun _ h => h⟩
  callDefined _ := keepingNames_callDefined fun _ => Fault.not_isVanished_eval
  withBuffer _ _ := keepingNames_ignoresScratch.withBuffer HostRules.neverRemoving_allowsScopeFaults
  evaluatesInside _ hev _ := hev
  write id text := keepingNames_ignoresScratch.onScratch fun scope =>
    HostRules.neverRemoving_allowsScopeFaults.answers_write scope id text
  contents id := keepingNames_ignoresScratch.onScratch fun scope =>
    HostRules.neverRemoving_allowsScopeFaults.answers_contents scope id
  top _ _ := keepingNames_ignoresScratch.atTop
  resetScratch _ := keepingNames_ignoresScratch.resetScratch
  close := nofun
  bindVar _ name e := keepingNames_bindVar name (.expr e)
  unbindVar := nofun

end Discipline

/-- Where no host function removes variables, no evaluation ever misses one, and what is bound
stays bound. Every call of a defined function takes back its parameters, however it ends, unless
it is refused, which changes nothing. -/
theorem Session.bindings_kept {s : Session} (h : s.Follows .neverRemoving) :
    (∀ e, (∀ fault, (evaluate e).result s = .error fault → ¬ fault.IsVanished) ∧
      (∀ name, s.vars.contains name = true → ((evaluate e).final s).vars.contains name = true) ∧
      ((evaluate e).final s).Follows .neverRemoving) ∧
    ∀ (levels : Nat) (fn : DefinedFn) (args : List Expr),
      (fn.Accepts args s.vars → ∀ formal ∈ fn.formals,
        ¬ ((fn.call (evaluateWith levels) args).final s).vars.contains formal = true) ∧
      (¬ fn.Accepts args s.vars → ∃ fault, fn.Refuses args fault ∧
        fn.call (evaluateWith levels) args s = .error fault s) := by
  have L := Discipline.keepingNames_lawful
  refine ⟨fun e => ?_, fun levels fn args => ⟨fun haccepts => ?_, fun h => ?_⟩⟩
  · obtain ⟨hfollows, hkept, hends⟩ := L.evaluate e s h
    refine ⟨fun fault hfault => ?_, hkept, hfollows⟩
    rw [hfault] at hends
    exact hends
  · obtain ⟨after, -, hcall⟩ := DefinedFn.call_of_keeps haccepts
    have hkept := (L.evaluateWith levels fn.body { s with vars := after } h).2.1
    intro formal hformal
    rw [(hcall _ s _ rfl rfl hkept).2, Table.contains_eraseAll]
    exact fun hcontains => hcontains.1 hformal
  · obtain ⟨fault, hrefuses, hcall⟩ := DefinedFn.call_refused h
    exact ⟨fault, hrefuses, hcall _ s rfl⟩

/-- A call whose body has a host function bind a variable of its own. -/
theorem Session.bindings_kept_hostBinding :
    ¬ ((DefinedFn.call (evaluateWith 5) ⟨"f", ["a"], .call "bind" []⟩ [.int 1]).final
      (Session.withHost ⟨150, 200, none, none⟩ "bind" fun _ _ =>
        .bindVar "x" .void fun _ => .done .absent)).vars.contains "a" = true := by
  have h : (Session.withHost ⟨150, 200, none, none⟩ "bind" fun _ _ =>
      .bindVar "x" .void fun _ => .done .absent).Follows .neverRemoving :=
    .withHost ⟨trivial, fun _ _ => ⟨trivial, trivial, trivial⟩⟩
  have haccepts : DefinedFn.Accepts ⟨"f", ["a"], .call "bind" []⟩ [.int 1] Table.empty :=
    ⟨rfl, by simp, by simp [Table.contains]⟩
  exact ((Session.bindings_kept h).2 5 _ _).1 haccepts "a" (List.mem_singleton.mpr rfl)

end MacroScript
