import MacroScript.Proofs.Evaluation.Tidy

/-!
# Tidy runs side by side

A run that is cut short still leaves, releases its buffers and takes back the
parameters it has bound, as any tidy run does. None of this fails, so the fault
that cut it short is the one that is seen.
-/
namespace MacroScript

namespace Coupling

open MacroScript.Action Session Discipline

variable {α : Type} {C : Coupling} {rules : HostRules} {plain : HostValue → Prop}
  {ev ev' : Evaluator} (hC : C.Lawful)

section Suits
include hC

theorem suits_tidy : C.Suits (tidy rules plain) where
  holds _ _ h := h
  admits _ _ hadmits h := h.limits ▸ hadmits
  onward _ _ _ h hahead := hC.trans hahead h.emitted

theorem suits_filling (id : BufferId) : C.Suits (filling rules plain id) where
  holds _ _ h := ⟨h.1, h.2.latest, h.2.kept, h.2.isOpen⟩
  admits _ _ hadmits h := h.limits ▸ hadmits
  onward _ _ _ h hahead := hC.trans hahead h.emitted

theorem suits_idle : C.Suits (idle rules plain) where
  holds _ _ h := h
  admits _ _ hadmits h := h.limits ▸ hadmits
  onward _ _ _ h hahead := hC.trans hahead h.emitted

end Suits

theorem matches_filling (h : C.Matches (tidy rules plain) rules ev ev') (id : BufferId) :
    C.Matches (filling rules plain id) rules ev ev' :=
  fun e => ⟨filling_evaluates h.left id e, filling_evaluates h.right id e,
    fun s hs hadmits => (h e).meet s hs.1 hadmits⟩

include hC

theorem both_nested {kind : HostValue → Prop} {a b : Action Session HostValue}
    (hlimit : ∀ limit, rules.fault (.eval (.recursionLimit limit)))
    (h : C.Both (tidy rules plain) rules kind a b) :
    C.Both (tidy rules plain) rules kind (do enter; a.ensuring leave)
      (do enter; b.ensuring leave) := by
  refine ⟨tidy_nested hlimit h.left, tidy_nested hlimit h.right, fun s hs hadmits => ?_⟩
  have henter := meet_enter hC hadmits
  by_cases hroom : s.depth < s.maxDepth
  · obtain ⟨hr, hf⟩ := eq_ok_iff.mp (enter_of_room hroom)
    have hs' := tidy_of_idle (idle_of_tidy hs)
    refine meet_of_ok henter hr ?_
    rw [hf]
    exact meet_ensuring (h.meet _ hs' hadmits) rfl rfl (fun _ => rfl) rfl
  · obtain ⟨hr, -⟩ := eq_error_iff.mp (enter_of_no_room (Int.not_lt.mp hroom))
    refine meet_of_error hC.trans henter hr ?_
    have hemitted : (enter.final (C.other s)).emitted = s.emitted := by
      rw [final, enter_eq]
      split_ifs <;> rfl
    rw [hemitted]
    exact (tidy_nested hlimit h.right (C.other s) hs).2.1.emitted

omit hC in
theorem both_callDefined
    (hown : ∀ error, (Fault.eval error).reason? = none → rules.fault (.eval error))
    (h : C.Matches (tidy rules plain) rules ev ev') (fn : DefinedFn) (args : List Expr) :
    C.Both (tidy rules plain) rules rules.value (fn.call ev args) (fn.call ev' args) := by
  refine ⟨tidy_callDefined hown h.left fn args, tidy_callDefined hown h.right fn args,
    fun s hs hadmits => ?_⟩
  unfold Meet Agree Cut
  by_cases haccepts : fn.Accepts args s.vars
  · obtain ⟨after, hbound, hcall⟩ := DefinedFn.call_of_keeps haccepts
    have hs' : (tidy rules plain).holds { s with vars := after } :=
      ⟨hs.1, hbound.bindsPlain hs.2.1, hs.2.2⟩
    have hkept := (h.left fn.body _ hs').2.1.names
    have hkept' := (h.right fn.body (C.other { s with vars := after }) hs').2.1.names
    obtain ⟨hr, hf⟩ := hcall ev s _ rfl rfl hkept
    obtain ⟨hr', hf'⟩ := hcall ev' (C.other s)
      ((ev' fn.body).final (C.other { s with vars := after })) rfl rfl hkept'
    rw [hr, hf, hr', hf']
    obtain ⟨hresult, hfinal⟩ | hcut := (h fn.body).meet _ hs' hadmits
    · rw [hfinal]
      exact .inl ⟨hresult, rfl⟩
    · exact .inr hcut
  · obtain ⟨fault, -, hcall⟩ := DefinedFn.call_refused haccepts
    obtain ⟨hr, hf⟩ := eq_error_iff.mp (hcall ev s rfl)
    obtain ⟨hr', hf'⟩ := eq_error_iff.mp (hcall ev' (C.other s) rfl)
    rw [hr, hf, hr', hf']
    exact .inl ⟨rfl, rfl⟩

theorem both_withBuffer {kind : α → Prop} {a b : BufferId → Action Session α}
    (hexhausted : ∀ scope needed limit, rules.fault (.scopeExhausted scope needed limit))
    (h : ∀ id, C.Both (filling rules plain id) rules kind (a id) (b id)) :
    C.Both (tidy rules plain) rules kind (Builtin.withBuffer a) (Builtin.withBuffer b) := by
  have hright := tidy_withBuffer hexhausted fun id => (h id).right
  refine ⟨tidy_withBuffer hexhausted fun id => (h id).left, hright, fun s hs hadmits => ?_⟩
  have hnew := meet_onScratch hC hadmits Scope.upToLimit_newBuffer
  by_cases hroom : s.scratch.allows s.scratch.used = true
  · obtain ⟨hr, hf⟩ := eq_ok_iff.mp (onScratch_ok (Scope.newBuffer_of_allows hroom))
    have hs' : (filling rules plain s.scratch.buffers.length).holds
        { s with scratch := s.scratch.opened } := ⟨hs, s.scratch.holding_opened⟩
    obtain ⟨hleft, hright, hmeet⟩ := h s.scratch.buffers.length
    have hholds := (hleft _ hs').1.2
    have hholds' := (hright (C.other { s with scratch := s.scratch.opened })
      ⟨hs, hs'.2.latest, hs'.2.kept, hs'.2.isOpen⟩).1.2
    refine meet_of_ok hnew hr ?_
    rw [hf]
    refine meet_ensuring (hmeet _ hs' hadmits) (eq_ok_iff.mp (discard_eq hholds)).1
      (eq_ok_iff.mp (discard_eq hholds')).1 (fun _ => ?_) ?_
    · rw [Builtin.discard, final_onScratch]
    · rw [(eq_ok_iff.mp (discard_eq hholds)).2]
      generalize (a s.scratch.buffers.length).final { s with scratch := s.scratch.opened } = t at *
      have hother := @discard_eq _ (C.other t) ⟨hholds.latest, hholds.kept, hholds.isOpen⟩
      exact (eq_ok_iff.mp hother).2
  · obtain ⟨hr, -⟩ := eq_error_iff.mp (onScratch_error (Scope.newBuffer_of_not_allows hroom))
    refine meet_of_error hC.trans hnew hr ?_
    rw [final_onScratch]
    exact (hright (C.other s) hs).2.1.emitted

/-- Tidy runs can be compared under all limits, but for the hosts, which see them. -/
theorem tidy_lifts (h : rules.Considerate plain)
    (hhosts : rules.hosts → ∀ limits, C.admits limits → C.limits limits = limits) :
    C.Lifts (tidy rules plain) rules (filling rules plain) where
  coupling := hC
  discipline := tidy_lawful h
  suits := suits_tidy hC
  suitsInside := suits_filling hC
  nested _ _ := both_nested hC fun _ => h.ownError _ rfl
  callDefined _ _ := both_callDefined h.ownError
  withBuffer _ _ _ := both_withBuffer hC h.exhausted
  matchesInside _ _ := matches_filling
  top htop _ _ hab := hab.atTop fun _ hs hdepth =>
    absurd hdepth (Int.ne_of_gt (hs.2.2 htop))
  hosts := hhosts

end Coupling

end MacroScript
