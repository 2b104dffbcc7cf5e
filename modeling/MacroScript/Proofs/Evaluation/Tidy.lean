import MacroScript.Proofs.Evaluation.Bindings
import MacroScript.Proofs.Evaluation.Indifference
import MacroScript.Proofs.Evaluation.Levels
import MacroScript.Proofs.Session.Limits
import MacroScript.Proofs.Scope.Restored

/-!
# Evaluations are tidy

As long as hosts only evaluate and bind, every evaluation leaves the depth and
the scratch scope exactly as they were, whatever its end. So `echo` and `repeat`
find their buffers open and kept when they come back to them, and a defined
function finds its parameters. Hosts may also evaluate at the top; the depth is
above zero while they run, so that the scratch scope is not reset under the
evaluation they are called from.
-/
namespace MacroScript

/-- Rules for hosts that evaluate and bind but take nothing away. All that can come out of an
evaluation then is among the ends that the rules allow. -/
structure HostRules.Considerate (rules : HostRules) (plain : HostValue → Prop) : Prop where
  literal : ∀ e : Expr, e.isLiteral → rules.value (.expr e)
  plain : ∀ v, v.asExpr? = none → plain v → rules.value v
  ownError : ∀ error, (Fault.eval error).reason? = none → rules.fault (.eval error)
  exhausted : ∀ scope needed limit, rules.fault (.scopeExhausted scope needed limit)
  malformed : ∀ error, rules.fault (.malformed error)
  accessor : ∀ v, rules.value v → v.asExpr? = none →
    ∀ accessor, rules.fault (.foreign (.noAccessor v.typeName accessor))
  notBindable : ∀ v, rules.value v → v.asExpr? = none →
    ∀ name, rules.fault (.foreign (.notBindable name v))
  guarded : ∀ name fault, rules.fault fault → rules.fault (Function.guardedFault name fault)
  resets : ¬ rules.resets
  closes : ¬ rules.closes
  unbinds : ¬ rules.unbinds

/-- What an evaluation leaves as it was, with the scratch scopes in a given relation. -/
structure Session.Tidied (scopes : Scope → Scope → Prop) (s t : Session) : Prop where
  names : ∀ name, s.vars.contains name = true → t.vars.contains name = true
  depth : t.depth = s.depth
  limits : t.limits = s.limits
  emitted : s.emitted <:+ t.emitted
  scratch : scopes s.scratch t.scratch

namespace Session.Tidied

variable {scopes other : Scope → Scope → Prop} {s t u : Session}

theorem trans (h : ∀ {a b c}, scopes a b → scopes b c → scopes a c) (hst : Tidied scopes s t)
    (htu : Tidied scopes t u) : Tidied scopes s u where
  names name hname := htu.names name (hst.names name hname)
  depth := htu.depth.trans hst.depth
  limits := htu.limits.trans hst.limits
  emitted := hst.emitted.trans htu.emitted
  scratch := h hst.scratch htu.scratch

theorem of_scratch {scratch : Scope} (h : scopes s.scratch scratch)
    (hlimit : scratch.limit = s.scratch.limit) : Tidied scopes s { s with scratch := scratch } := by
  refine ⟨fun _ h => h, rfl, ?_, List.suffix_refl _, h⟩
  simp only [Session.limits, hlimit]

theorem of_vars {vars : Table HostValue} (h : scopes s.scratch s.scratch)
    (hvars : ∀ name, s.vars.contains name = true → vars.contains name = true) :
    Tidied scopes s { s with vars := vars } :=
  ⟨hvars, rfl, rfl, List.suffix_refl _, h⟩

theorem imp (h : Tidied scopes s t) (himp : scopes s.scratch t.scratch → other s.scratch t.scratch) :
    Tidied other s t :=
  ⟨h.names, h.depth, h.limits, h.emitted, himp h.scratch⟩

end Session.Tidied

namespace Discipline

open MacroScript.Action Session

/-- The scratch scope is restored. Variables stay bound to expressions and the given plain values,
and the depth is above zero where hosts may evaluate at the top. -/
def tidy (rules : HostRules) (plain : HostValue → Prop) : Discipline where
  holds s := s.Follows rules ∧ s.BindsPlain plain ∧ (rules.atTop → 0 < s.depth)
  allows := Tidied Scope.Restored
  refl s := .of_scratch (.refl s.scratch) rfl
  trans := Tidied.trans Scope.Restored.trans

/-- The same while a buffer of the scratch scope is being filled. -/
def filling (rules : HostRules) (plain : HostValue → Prop) (id : BufferId) : Discipline where
  holds s := (tidy rules plain).holds s ∧ s.scratch.Holding id
  allows := Tidied (Scope.Filled id)
  refl s := .of_scratch (.refl id s.scratch) rfl
  trans := Tidied.trans Scope.Filled.trans

/-- Between evaluations, where the scratch scope may be reset and the depth is not below zero if
hosts may evaluate at the top. -/
def idle (rules : HostRules) (plain : HostValue → Prop) : Discipline where
  holds s := s.Follows rules ∧ s.BindsPlain plain ∧ (rules.atTop → 0 ≤ s.depth)
  allows := Tidied fun _ _ => True
  refl _ := .of_scratch trivial rfl
  trans := Tidied.trans fun _ _ => trivial

variable {rules : HostRules} {plain : HostValue → Prop}

theorem idle_of_tidy {s : Session} (h : (tidy rules plain).holds s) : (idle rules plain).holds s :=
  ⟨h.1, h.2.1, fun htop => Int.le_of_lt (h.2.2 htop)⟩

/-- While an evaluation goes on, the depth is above zero. -/
theorem tidy_of_idle {s : Session} (h : (idle rules plain).holds s) :
    (tidy rules plain).holds { s with depth := s.depth + 1 } :=
  ⟨h.1, h.2.1, fun htop => Int.lt_add_one_of_le (h.2.2 htop)⟩

theorem tidy_nested {kind : HostValue → Prop} {action : Action Session HostValue}
    (hlimit : ∀ limit, rules.fault (.eval (.recursionLimit limit)))
    (h : (tidy rules plain).Keeps rules kind action) :
    (tidy rules plain).Keeps rules kind (do enter; action.ensuring leave) := by
  intro s hs
  by_cases hroom : s.depth < s.maxDepth
  · obtain ⟨hr, hf⟩ := eq_ok_iff.mp (enter_of_room hroom)
    obtain ⟨hholds, hallows, hends⟩ := h _ (tidy_of_idle (idle_of_tidy hs))
    have hdepth : (action.final { s with depth := s.depth + 1 }).depth - 1 = s.depth := by
      rw [hallows.depth]
      exact Int.add_sub_cancel ..
    rw [final_bind_ok hr, result_bind_ok hr, hf, final_ensuring, result_ensuring_ok result_leave,
      final_leave]
    refine ⟨⟨hholds.1, hholds.2.1, fun htop => ?_⟩, ?_, hends⟩
    · exact lt_of_lt_of_eq (hs.2.2 htop) hdepth.symm
    · exact ⟨hallows.names, hdepth, hallows.limits, hallows.emitted, hallows.scratch⟩
  · obtain ⟨hr, hf⟩ := eq_error_iff.mp (enter_of_no_room (Int.not_lt.mp hroom))
    rw [final_bind_error hr, result_bind_error hr, hf]
    exact ⟨hs, (tidy rules plain).refl s, hlimit s.maxDepth⟩

theorem tidy_setVar (name : String) (e : Expr) :
    (tidy rules plain).Permits (setVar name (.expr e)) :=
  .of_final fun s hs => ⟨⟨hs.1, hs.2.1.insert name e, hs.2.2⟩,
    .of_vars (.refl s.scratch) fun _ h => (Table.contains_insert ..).mpr (.inr h)⟩

theorem tidy_bindVar (name : String) (e : Expr) :
    (tidy rules plain).Permits (bindVar name (.expr e)) := by
  refine .of_final fun s hs => ?_
  unfold final
  rw [bindVar_eq]
  split_ifs
  · exact ⟨hs, (tidy rules plain).refl s⟩
  · exact (tidy_setVar name e s hs).imp_right And.left

theorem tidy_keep
    (hexhausted : ∀ scope needed limit, rules.fault (.scopeExhausted scope needed limit))
    (object : Kept) (amount : Int) :
    (tidy rules plain).Keeps rules (fun _ => True) (onArena (Scope.keep object amount)) := by
  intro s hs
  have hkeep := @Scope.keep_eq s.arena amount object
  split_ifs at hkeep with hroom
  · obtain ⟨hr, hf⟩ := eq_ok_iff.mp (onArena_ok hkeep)
    rw [hr, hf]
    exact ⟨hs, ⟨fun _ h => h, rfl, rfl, List.suffix_refl _, .refl s.scratch⟩, trivial⟩
  · obtain ⟨hr, hf⟩ := eq_error_iff.mp (onArena_error hkeep)
    rw [hr, hf]
    exact ⟨hs, (tidy rules plain).refl s, hexhausted ..⟩

theorem tidy_emit (text : String) : (tidy rules plain).Permits (emit text) :=
  .of_final fun s hs => ⟨hs, fun _ h => h, rfl, rfl, List.suffix_cons .., .refl s.scratch⟩

theorem tidy_callDefined
    (hown : ∀ error, (Fault.eval error).reason? = none → rules.fault (.eval error))
    {ev : Evaluator} (hev : (tidy rules plain).Evaluates rules ev) (fn : DefinedFn)
    (args : List Expr) : (tidy rules plain).Keeps rules rules.value (fn.call ev args) := by
  refine callDefined_of_kept hown (fun _ _ => Tidied.names) ?_ ?_ hev fn args
  · exact fun s _ _ after hs hbound => ⟨hs.1, hbound.bindsPlain hs.2.1, hs.2.2⟩
  · intro s _ names after t hbound hholds hkept
    refine ⟨⟨hholds.1, hholds.2.1.eraseAll names, hholds.2.2⟩, ?_⟩
    exact ⟨hbound.kept hkept.names, hkept.depth, hkept.limits, hkept.emitted, hkept.scratch⟩

theorem discard_eq {id : BufferId} {s : Session} (h : s.scratch.Holding id) :
    Builtin.discard id s = .ok () { s with scratch := s.scratch.discarded id } :=
  onScratch_ok (Scope.releaseForget_eq h)

theorem tidy_withBuffer {α : Type} {kind : α → Prop} {action : BufferId → Action Session α}
    (hexhausted : ∀ scope needed limit, rules.fault (.scopeExhausted scope needed limit))
    (h : ∀ id, (filling rules plain id).Keeps rules kind (action id)) :
    (tidy rules plain).Keeps rules kind (Builtin.withBuffer action) := by
  intro s hs
  by_cases hroom : s.scratch.allows s.scratch.used = true
  · obtain ⟨hr, hf⟩ := eq_ok_iff.mp (onScratch_ok (Scope.newBuffer_of_allows hroom))
    have hs' : (filling rules plain s.scratch.buffers.length).holds
        { s with scratch := s.scratch.opened } := ⟨hs, s.scratch.holding_opened⟩
    obtain ⟨hholds, hkept, hends⟩ := h s.scratch.buffers.length _ hs'
    obtain ⟨hr', hf'⟩ := eq_ok_iff.mp (discard_eq hholds.2)
    rw [Builtin.withBuffer, result_bind_ok hr, final_bind_ok hr, hf, final_ensuring,
      result_ensuring_ok hr', hf']
    refine ⟨hholds.1, ?_, hends⟩
    exact ⟨hkept.names, hkept.depth, hkept.limits, hkept.emitted,
      Scope.restored_discarded hkept.scratch⟩
  · obtain ⟨hr, hf⟩ := eq_error_iff.mp (onScratch_error (Scope.newBuffer_of_not_allows hroom))
    rw [Builtin.withBuffer, result_bind_error hr, final_bind_error hr, hf]
    exact ⟨hs, (tidy rules plain).refl s, hexhausted ..⟩

theorem filling_evaluates {ev : Evaluator} (h : (tidy rules plain).Evaluates rules ev)
    (id : BufferId) : (filling rules plain id).Evaluates rules ev := by
  intro e s hs
  obtain ⟨hholds, hkept, hends⟩ := h e s hs.1
  exact ⟨⟨hholds, hkept.scratch.holding hs.2⟩, hkept.imp fun h => h.filled id, hends⟩

theorem filling_write
    (hexhausted : ∀ scope needed limit, rules.fault (.scopeExhausted scope needed limit))
    (id : BufferId) (text : String) :
    (filling rules plain id).Keeps rules (fun _ => True) (onScratch (Scope.write id text)) := by
  intro s hs
  have hwrite := @Scope.write_eq s.scratch id text
  rw [if_neg (Bool.eq_false_iff.mp hs.2.isOpen)] at hwrite
  split_ifs at hwrite with hroom
  · obtain ⟨hr, hf⟩ := eq_ok_iff.mp (onScratch_ok hwrite)
    rw [hr, hf]
    exact ⟨⟨hs.1, Scope.holding_written hs.2⟩, .of_scratch (Scope.filled_written hs.2) rfl, trivial⟩
  · obtain ⟨hr, hf⟩ := eq_error_iff.mp (onScratch_error hwrite)
    rw [hr, hf]
    exact ⟨hs, (filling rules plain id).refl s, hexhausted ..⟩

theorem filling_contents (id : BufferId) :
    (filling rules plain id).Keeps rules (fun _ => True) (onScratch (Scope.contents id)) := by
  intro s hs
  have hcontents := @Scope.contents_eq s.scratch id
  rw [if_neg (Bool.eq_false_iff.mp hs.2.isOpen)] at hcontents
  obtain ⟨hr, hf⟩ := eq_ok_iff.mp (onScratch_ok hcontents)
  rw [hr, hf]
  exact ⟨hs, (filling rules plain id).refl s, trivial⟩

theorem tidy_lawful (h : rules.Considerate plain) :
    (tidy rules plain).Lawful rules (filling rules plain) where
  literal := h.literal
  ownError := h.ownError
  malformed _ := h.malformed
  accessor := h.accessor
  notBindable := h.notBindable
  guarded := h.guarded
  bound _ hs name v hfind hv := h.plain v hv (hs.2.1 name v hfind hv)
  follows _ hs := hs.1
  nested _ := tidy_nested fun _ => h.ownError _ rfl
  setVar name e _ := tidy_setVar name e
  define := define_of_steps ⟨h.literal, h.ownError, h.accessor, h.notBindable, h.guarded⟩
    (fun fn => tidy_keep h.exhausted (.defined fn) fn.size)
    fun _ => .of_final fun s hs =>
      ⟨⟨hs.1.install trivial, hs.2⟩, fun _ h => h, rfl, rfl, List.suffix_refl _, .refl s.scratch⟩
  emit := tidy_emit
  countCall _ := .of_final fun s hs =>
    ⟨hs, fun _ h => h, rfl, rfl, List.suffix_refl _, .refl s.scratch⟩
  callDefined _ := tidy_callDefined h.ownError
  withBuffer _ _ := tidy_withBuffer h.exhausted
  evaluatesInside _ := filling_evaluates
  write := filling_write h.exhausted
  contents := filling_contents
  top htop _ haction := haction.atTop fun _ hs hdepth => absurd hdepth (Int.ne_of_gt (hs.2.2 htop))
  resetScratch hresets := absurd hresets h.resets
  close hcloses := absurd hcloses h.closes
  bindVar _ := tidy_bindVar
  unbindVar hunbinds := absurd hunbinds h.unbinds

/-- A whole evaluation restores the scratch scope, whatever its stock of levels. -/
theorem evaluateWith_tidied (h : rules.Considerate plain) {s : Session}
    (hs : (idle rules plain).holds s) (levels : Nat) (e : Expr) :
    (idle rules plain).holds ((evaluateWith levels e).final s) ∧
      Tidied Scope.Restored s ((evaluateWith levels e).final s) ∧
      rules.Answers rules.value ((evaluateWith levels e).result s) := by
  have L := tidy_lawful h
  cases levels with
  | zero => exact ⟨hs, (tidy rules plain).refl s, h.ownError _ rfl⟩
  | succ levels =>
      unfold evaluateWith
      by_cases hroom : s.depth < s.maxDepth
      · obtain ⟨hr, hf⟩ := eq_ok_iff.mp (enter_of_room hroom)
        obtain ⟨hholds, hkept, hends⟩ :=
          L.evaluateStep (L.evaluateWith levels) e _ (tidy_of_idle hs)
        rw [final_bind_ok hr, result_bind_ok hr, hf, final_ensuring, result_ensuring_ok result_leave,
          final_leave]
        have hdepth := hkept.depth
        refine ⟨⟨hholds.1, hholds.2.1, fun htop => ?_⟩, ?_, hends⟩
        · have := hs.2.2 htop
          dsimp only at hdepth ⊢
          omega
        · refine ⟨hkept.names, ?_, hkept.limits, hkept.emitted, hkept.scratch⟩
          dsimp only at hdepth ⊢
          omega
      · obtain ⟨hr, hf⟩ := eq_error_iff.mp (enter_of_no_room (Int.not_lt.mp hroom))
        rw [final_bind_error hr, result_bind_error hr, hf]
        exact ⟨hs, (tidy rules plain).refl s, h.ownError _ rfl⟩

theorem idle_evaluate (h : rules.Considerate plain) (e : Expr) :
    (idle rules plain).Keeps rules rules.value (evaluate e) := by
  intro s hs
  obtain ⟨hholds, hkept, hends⟩ := evaluateWith_tidied h hs s.levels e
  exact ⟨hholds, hkept.imp fun _ => trivial, hends⟩

theorem idle_resetScratch (s : Session) (hs : (idle rules plain).holds s) :
    (idle rules plain).holds { s with scratch := s.scratch.reset } ∧
      (idle rules plain).allows s { s with scratch := s.scratch.reset } :=
  ⟨hs, .of_scratch trivial s.scratch.limit_reset⟩

end Discipline

end MacroScript
