import MacroScript.Proofs.Evaluation.Enclosed

/-!
# Disciplines within a region

A discipline can be confined to a region of the states: those that are in order
and lie in the region. If what the discipline allows never leads out of the
region, and what is begun begins within it, then the confined discipline is
lawful because the discipline is. What an action does outside the region is then
of no account, so it may be taken to fail there at once.
-/
namespace MacroScript

namespace Discipline

open Session

variable {α : Type} {D : Discipline} {rules : HostRules} {region : Session → Prop}

/-- The discipline for the states of a region. -/
def within (D : Discipline) (region : Session → Prop) : Discipline where
  holds s := D.holds s ∧ region s
  allows := D.allows
  refl := D.refl
  trans := D.trans

/-- What the discipline allows does not lead out of the region. -/
def Stays (D : Discipline) (region : Session → Prop) : Prop :=
  ∀ s t, D.holds s → D.holds t → D.allows s t → region s → region t

open Classical in
/-- The action where it begins in the region. Elsewhere it fails at once. -/
noncomputable def confined (region : Session → Prop) (action : Action Session α) :
    Action Session α :=
  fun s => if region s then action s else .error (.eval (.recursionLimit s.maxDepth)) s

theorem confined_eq (action : Action Session α) {s : Session} (h : region s) :
    confined region action s = action s :=
  if_pos h

theorem Ends.confined {ends : Except Fault α → Prop} {action : Action Session α}
    (h : (D.within region).Ends ends action)
    (hlimit : ∀ limit, ends (.error (.eval (.recursionLimit limit)))) :
    D.Ends ends (confined region action) := by
  intro s hs
  unfold Action.final Action.result Discipline.confined
  by_cases hregion : region s
  · have hkept := h s ⟨hs, hregion⟩
    rw [if_pos hregion]
    exact ⟨hkept.1.1, hkept.2⟩
  · rw [if_neg hregion]
    exact ⟨hs, D.refl s, hlimit s.maxDepth⟩

theorem Ends.within {ends : Except Fault α → Prop} {action : Action Session α}
    (h : D.Ends ends action) (hstays : D.Stays region) : (D.within region).Ends ends action := by
  intro s hs
  obtain ⟨hholds, hallows, hends⟩ := h s hs.1
  exact ⟨⟨hholds, hstays s _ hs.1 hholds hallows hs.2⟩, hallows, hends⟩

/-- A lawful discipline is lawful within a region that it does not lead out of. -/
theorem Lawful.within {inside : BufferId → Discipline} {regionInside : BufferId → Session → Prop}
    (L : D.Lawful rules inside) (hstays : D.Stays region)
    (hstaysInside : ∀ id, (inside id).Stays (regionInside id))
    (K : (D.within region).Descends fun id => (inside id).within (regionInside id)) :
    (D.within region).Lawful rules fun id => (inside id).within (regionInside id) where
  literal := L.literal
  ownError := L.ownError
  malformed := L.malformed
  accessor := L.accessor
  notBindable := L.notBindable
  guarded := L.guarded
  bound s hs := L.bound s hs.1
  follows s hs := L.follows s hs.1
  nested action h := by
    have hnested := L.nested _ (h.confined fun _ => L.ownError _ rfl)
    refine (hnested.within hstays).congr fun s hs => nested_congr fun hroom => ?_
    exact confined_eq action (K.entered s hs hroom).2
  setVar name e h := (L.setVar name e h).within hstays
  define target params body := (L.define target params body).within hstays
  emit text := (L.emit text).within hstays
  countCall registration := (L.countCall registration).within hstays
  callDefined ev h fn args := by
    have hcall := L.callDefined (fun e => confined region (ev e))
      (fun e => (h e).confined fun _ => L.ownError _ rfl) fn args
    refine (hcall.within hstays).congr fun s hs => DefinedFn.call_congr fun after hbound => ?_
    exact confined_eq _ (K.bound s _ _ after hs hbound).2
  withBuffer kind action h := by
    have hbuffer := L.withBuffer kind (fun id => confined (regionInside id) (action id))
      fun id => (h id).confined fun _ => L.ownError _ rfl
    refine (hbuffer.within hstays).congr fun s hs => Builtin.withBuffer_congr ?_
    exact confined_eq _ (K.opened s hs).2
  evaluatesInside ev h id e := by
    have hinside := L.evaluatesInside (fun e => confined region (ev e))
      (fun e => (h e).confined fun _ => L.ownError _ rfl) id e
    exact (hinside.within (hstaysInside id)).congr fun s hs => confined_eq _ (K.outside id s hs).2
  write id text := (L.write id text).within (hstaysInside id)
  contents id := (L.contents id).within (hstaysInside id)
  top htop action h := by
    have hattop := L.top htop _ (h.confined fun _ => L.ownError _ rfl)
    exact (hattop.within hstays).congr fun s hs => Action.ensuring_congr (confined_eq action hs.2)
  resetScratch h := (L.resetScratch h).within hstays
  close h := (L.close h).within hstays
  bindVar h name e := (L.bindVar h name e).within hstays
  unbindVar h name := (L.unbindVar h name).within hstays

end Discipline

end MacroScript
