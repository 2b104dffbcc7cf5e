import MacroScript.Proofs.Evaluation.Indifference
import MacroScript.Proofs.Evaluation.Lawful

/-!
# The depth of evaluations

Every evaluation that enters also leaves, so the depth is given back, whatever
happens in between. Only a host that closes the session upsets the count: the
depth is set to zero then, and the evaluations that are in progress still leave.
-/
namespace MacroScript

/-- Rules that allow every fault, and every value that can come out of a variable. -/
structure HostRules.Lenient (rules : HostRules) (plain : HostValue → Prop) : Prop where
  literal : ∀ e : Expr, e.isLiteral → rules.value (.expr e)
  plain : ∀ v, v.asExpr? = none → plain v → rules.value v
  fault : ∀ f, rules.fault f

theorem HostRules.Lenient.allowsScopeFaults {rules : HostRules} {plain : HostValue → Prop}
    (h : rules.Lenient plain) : rules.AllowsScopeFaults :=
  ⟨fun _ _ _ => h.fault _, h.fault _, h.fault _⟩

theorem HostRules.Lenient.ownEnds {rules : HostRules} {plain : HostValue → Prop}
    (h : rules.Lenient plain) : rules.AllowsOwnEnds :=
  ⟨h.literal, fun _ _ => h.fault _, fun _ _ _ _ => h.fault _, fun _ _ _ _ => h.fault _,
    fun _ _ _ => h.fault _⟩

/-- Hosts may do anything, or anything but close the session. -/
def HostRules.free (closes : Prop) : HostRules where
  hosts := True
  value _ := True
  fault _ := True
  atTop := True
  resets := True
  closes := closes
  binds := True
  unbinds := True

theorem HostRules.free_lenient (closes : Prop) : (free closes).Lenient fun _ => True :=
  ⟨fun _ _ => trivial, fun _ _ _ => trivial, fun _ => trivial⟩

namespace Discipline

open Session

/-- Variables stay bound to expressions and the given plain values, and the depth is kept; where
hosts may close the session it may become zero. -/
def keepingDepth (rules : HostRules) (plain : HostValue → Prop) : Discipline where
  holds s := s.Follows rules ∧ s.BindsPlain plain
  allows s t := t.maxDepth = s.maxDepth ∧ (t.depth = s.depth ∨ rules.closes ∧ t.depth ≤ 0)
  refl _ := ⟨rfl, .inl rfl⟩
  trans := by
    rintro s t u ⟨hlimit, hdepth⟩ ⟨hlimit', hdepth'⟩
    refine ⟨hlimit'.trans hlimit, ?_⟩
    rcases hdepth' with hdepth' | hclosed
    · rw [hdepth']
      exact hdepth
    · exact .inr hclosed

variable {rules : HostRules} {plain : HostValue → Prop}

theorem keepingDepth_ignoresScratch : (keepingDepth rules plain).IgnoresScratch :=
  ⟨fun _ _ h => h, fun s _ => (keepingDepth rules plain).refl s⟩

theorem keepingDepth_ignoresArena : (keepingDepth rules plain).IgnoresArena :=
  ⟨fun _ _ h => h, fun s _ => (keepingDepth rules plain).refl s⟩

theorem keepingDepth_nested {kind : HostValue → Prop} {action : Action Session HostValue}
    (hlimit : ∀ limit, rules.fault (.eval (.recursionLimit limit)))
    (h : (keepingDepth rules plain).Keeps rules kind action) :
    (keepingDepth rules plain).Keeps rules kind (do enter; action.ensuring leave) := by
  intro s hs
  by_cases hroom : s.depth < s.maxDepth
  · obtain ⟨hr, hf⟩ := Action.eq_ok_iff.mp (enter_of_room hroom)
    obtain ⟨hholds, ⟨hmax, hdepth⟩, hends⟩ := h { s with depth := s.depth + 1 } hs
    rw [Action.final_bind_ok hr, Action.result_bind_ok hr, hf, Action.final_ensuring,
      Action.result_ensuring_ok result_leave]
    refine ⟨hholds, ⟨hmax, ?_⟩, hends⟩
    dsimp only [final_leave] at hdepth ⊢
    rcases hdepth with hdepth | ⟨hcloses, hdepth⟩
    · exact .inl (by omega)
    · exact .inr ⟨hcloses, by omega⟩
  · obtain ⟨hr, hf⟩ := Action.eq_error_iff.mp (enter_of_no_room (Int.not_lt.mp hroom))
    rw [Action.final_bind_error hr, Action.result_bind_error hr, hf]
    exact ⟨hs, (keepingDepth rules plain).refl s, hlimit s.maxDepth⟩

theorem keepingDepth_setVar (name : String) (e : Expr) :
    (keepingDepth rules plain).Permits (setVar name (.expr e)) :=
  .of_final fun s hs => ⟨⟨hs.1, hs.2.insert name e⟩, (keepingDepth rules plain).refl s⟩

theorem keepingDepth_bindVar (name : String) (e : Expr) :
    (keepingDepth rules plain).Permits (bindVar name (.expr e)) := by
  refine .of_final fun s hs => ?_
  unfold Action.final
  rw [bindVar_eq]
  split_ifs
  · exact ⟨hs, (keepingDepth rules plain).refl s⟩
  · exact ⟨⟨hs.1, hs.2.insert name e⟩, (keepingDepth rules plain).refl s⟩

theorem keepingDepth_unbindVar (name : String) :
    (keepingDepth rules plain).Permits (unbindVar name) := by
  refine .of_final fun s hs => ?_
  unfold Action.final
  rw [unbindVar_eq]
  split_ifs
  · exact ⟨⟨hs.1, hs.2.erase name⟩, (keepingDepth rules plain).refl s⟩
  · exact ⟨hs, (keepingDepth rules plain).refl s⟩

theorem keepingDepth_close (h : rules.closes) : (keepingDepth rules plain).Permits close :=
  .of_final fun _ _ => ⟨⟨nofun, nofun⟩, rfl, .inr ⟨h, Int.le_refl 0⟩⟩

theorem keepingDepth_lawful (h : rules.Lenient plain) :
    (keepingDepth rules plain).Lawful rules fun _ => keepingDepth rules plain where
  literal := h.literal
  ownError _ _ := h.fault _
  malformed _ _ := h.fault _
  accessor _ _ _ _ := h.fault _
  notBindable _ _ _ _ := h.fault _
  guarded _ _ _ := h.fault _
  bound _ hs name v hfind hv := h.plain v hv (hs.2 name v hfind hv)
  follows _ hs := hs.1
  nested _ := keepingDepth_nested fun _ => h.fault _
  setVar name e _ := keepingDepth_setVar name e
  define := define_of_steps h.ownEnds
    (fun fn => keepingDepth_ignoresArena.keep (fun _ _ _ => h.fault _) (.defined fn) fn.size)
    fun _ => .of_final fun s hs =>
      ⟨⟨hs.1.install trivial, hs.2⟩, (keepingDepth rules plain).refl s⟩
  emit _ := .of_final fun s hs => ⟨hs, (keepingDepth rules plain).refl s⟩
  countCall _ := .of_final fun s hs => ⟨hs, (keepingDepth rules plain).refl s⟩
  callDefined _ hev fn args := callDefined_keeps (fun _ _ => h.fault _) (fun _ => h.fault _)
    keepingDepth_bindVar keepingDepth_unbindVar hev fn args
  withBuffer _ _ := keepingDepth_ignoresScratch.withBuffer h.allowsScopeFaults
  evaluatesInside _ hev _ := hev
  write id text := keepingDepth_ignoresScratch.onScratch fun scope =>
    h.allowsScopeFaults.answers_write scope id text
  contents id := keepingDepth_ignoresScratch.onScratch fun scope =>
    h.allowsScopeFaults.answers_contents scope id
  top _ _ := keepingDepth_ignoresScratch.atTop
  resetScratch _ := keepingDepth_ignoresScratch.resetScratch
  close := keepingDepth_close
  bindVar _ := keepingDepth_bindVar
  unbindVar _ := keepingDepth_unbindVar

end Discipline

end MacroScript
