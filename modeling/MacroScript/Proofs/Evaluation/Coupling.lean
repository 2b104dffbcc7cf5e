import MacroScript.Proofs.Evaluation.Discipline
import MacroScript.Proofs.Session.Limits

/-!
# Two runs side by side

A run is compared with another one of the same state under other limits, in
which the nested evaluations may be answered differently. The two meet if they
end alike and leave the same state up to the limits, or if the first is cut
short by a fault of a given kind. What is emitted from then on is emitted by the
other run alone.

Both runs are tidy on their own, so a cleanup in the first run succeeds after
the cut, and the fault arrives at the top as it is.
-/
namespace MacroScript

/-- The limits that are compared, and what may cut the first run short. -/
structure Coupling where
  admits : Limits → Prop
  limits : Limits → Limits
  cut : Fault → Prop
  /-- The texts emitted up to the cut, with the last one first, and those of the other run. -/
  ahead : List String → List String → Prop

namespace Coupling

open MacroScript.Action Session

variable {α β : Type} {C : Coupling} {D : Discipline}

/-- The state under the limits it is compared with. -/
def other (C : Coupling) (s : Session) : Session := s.withLimits (C.limits s.limits)

/-- The two end alike, in the same state up to the limits. -/
def Agree (C : Coupling) (a b : Action Session α) (s : Session) : Prop :=
  b.result (C.other s) = a.result s ∧ b.final (C.other s) = C.other (a.final s)

/-- The first is cut short. -/
def Cut (C : Coupling) (a b : Action Session α) (s : Session) : Prop :=
  ∃ fault, C.cut fault ∧ a.result s = .error fault ∧
    C.ahead (a.final s).emitted (b.final (C.other s)).emitted

def Meet (C : Coupling) (a b : Action Session α) (s : Session) : Prop :=
  C.Agree a b s ∨ C.Cut a b s

/-- Two actions that keep a discipline each, and meet. -/
structure Couples (C : Coupling) (D : Discipline) (ends : Except Fault α → Prop)
    (a b : Action Session α) : Prop where
  left : D.Ends ends a
  right : D.Ends ends b
  meet : ∀ s, D.holds s → C.admits s.limits → C.Meet a b s

/-- Two actions that meet and end in a value of a kind, or in a fault of the rules. -/
def Both (C : Coupling) (D : Discipline) (rules : HostRules) (kind : α → Prop)
    (a b : Action Session α) : Prop :=
  C.Couples D (rules.Answers kind) a b

/-- Two evaluators whose evaluations of every expression meet. -/
def Matches (C : Coupling) (D : Discipline) (rules : HostRules) (ev ev' : Evaluator) : Prop :=
  ∀ e, C.Both D rules rules.value (ev e) (ev' e)

/-- The discipline does not look at the limits. It leaves them among those that are compared, and the
texts that have been emitted where they are. -/
structure Suits (C : Coupling) (D : Discipline) : Prop where
  holds : ∀ s, C.admits s.limits → D.holds s → D.holds (C.other s)
  admits : ∀ s t, C.admits s.limits → D.allows s t → C.admits t.limits
  onward : ∀ texts s t, D.allows s t → C.ahead texts s.emitted → C.ahead texts t.emitted

/-- Where the limits differ the first run's are smaller, and their faults cut it short. -/
structure Lawful (C : Coupling) : Prop where
  covers : ∀ limits, C.admits limits → C.limits limits = limits ∨
    limits.LE (C.limits limits) ∧ ∀ fault : Fault, fault.IsResource → C.cut fault
  refl : ∀ texts, C.ahead texts texts
  trans : ∀ {texts more most}, C.ahead texts more → more <:+ most → C.ahead texts most
  guarded : ∀ name fault, C.cut fault → Function.guardedFault name fault = fault

/-- What has to be shown to compare evaluations under a discipline. -/
structure Lifts (C : Coupling) (D : Discipline) (rules : HostRules)
    (inside : BufferId → Discipline) : Prop where
  coupling : C.Lawful
  discipline : D.Lawful rules inside
  suits : C.Suits D
  suitsInside : ∀ id, C.Suits (inside id)
  nested : ∀ a b : Action Session HostValue, C.Both D rules rules.value a b →
    C.Both D rules rules.value (do enter; a.ensuring leave) (do enter; b.ensuring leave)
  callDefined : ∀ ev ev', C.Matches D rules ev ev' → ∀ fn args,
    C.Both D rules rules.value (DefinedFn.call ev fn args) (DefinedFn.call ev' fn args)
  withBuffer : ∀ {α : Type} (kind : α → Prop) (a b : BufferId → Action Session α),
    (∀ id, C.Both (inside id) rules kind (a id) (b id)) →
      C.Both D rules kind (Builtin.withBuffer a) (Builtin.withBuffer b)
  matchesInside : ∀ ev ev', C.Matches D rules ev ev' → ∀ id, C.Matches (inside id) rules ev ev'
  top : rules.atTop → ∀ a b : Action Session HostValue, C.Both D rules rules.value a b →
    C.Both D rules rules.value (atTop a) (atTop b)
  /-- Hosts see the limits. -/
  hosts : rules.hosts → ∀ limits, C.admits limits → C.limits limits = limits

section Meet

variable {x y : Action Session β} {f g : β → Action Session α} {a b : Action Session α} {s : Session}

/-- First steps that agree leave it to the second ones to meet. -/
theorem meet_of_agree (h : C.Agree x y s)
    (hnext : ∀ v, x.result s = .ok v → C.Meet (f v) (g v) (x.final s)) :
    C.Meet (x >>= f) (y >>= g) s := by
  obtain ⟨hr, hf⟩ := h
  cases hx : x.result s with
  | ok v =>
      rw [hx] at hr
      have hmeet := hnext v hx
      unfold Meet Agree Cut at hmeet ⊢
      rw [result_bind_ok hx, final_bind_ok hx, result_bind_ok hr, final_bind_ok hr, hf]
      exact hmeet
  | error fault =>
      rw [hx] at hr
      refine .inl ⟨?_, ?_⟩
      · rw [result_bind_error hx, result_bind_error hr]
      · rw [final_bind_error hx, final_bind_error hr, hf]

theorem meet_of_ok {v : β} (h : C.Meet x y s) (hr : x.result s = .ok v)
    (hnext : C.Meet (f v) (g v) (x.final s)) : C.Meet (x >>= f) (y >>= g) s := by
  obtain hagree | ⟨fault, -, hfault, -⟩ := h
  · refine meet_of_agree hagree fun v' hr' => ?_
    obtain rfl := Except.ok.inj (hr.symm.trans hr')
    exact hnext
  · rw [hr] at hfault
    cases hfault

/-- A first step that fails is the end of the first run; the other one may go on from there. -/
theorem meet_of_error {fault : Fault} (hC : ∀ {texts more most}, C.ahead texts more →
      more <:+ most → C.ahead texts most) (h : C.Meet x y s) (hr : x.result s = .error fault)
    (honward : (y.final (C.other s)).emitted <:+ ((y >>= g).final (C.other s)).emitted) :
    C.Meet (x >>= f) (y >>= g) s := by
  obtain hagree | ⟨first, hcut, hr', hahead⟩ := h
  · refine meet_of_agree hagree fun v hok => ?_
    cases hr.symm.trans hok
  · refine .inr ⟨first, hcut, result_bind_error hr', ?_⟩
    rw [final_bind_error hr]
    exact hC hahead honward

/-- A cleanup that succeeds on both sides, and does the same if both did the same so far. -/
theorem meet_ensuring {cleanup : Action Session Unit} (h : C.Meet a b s)
    (hok : cleanup.result (a.final s) = .ok ())
    (hok' : cleanup.result (b.final (C.other s)) = .ok ())
    (hemitted : ∀ s, (cleanup.final s).emitted = s.emitted)
    (hother : cleanup.final (C.other (a.final s)) = C.other (cleanup.final (a.final s))) :
    C.Meet (a.ensuring cleanup) (b.ensuring cleanup) s := by
  unfold Meet Agree Cut
  rw [final_ensuring, final_ensuring, result_ensuring_ok hok, result_ensuring_ok hok', hemitted,
    hemitted]
  obtain ⟨hr, hf⟩ | hcut := h
  · rw [hf, hother]
    exact .inl ⟨hr, rfl⟩
  · exact .inr hcut

end Meet

section Combinators

variable {ends : Except Fault α → Prop} {ends' : Except Fault β → Prop} {a b x : Action Session α}
  {f g : α → Action Session β}

theorem Couples.pure {v : α} (h : ends (.ok v)) : C.Couples D ends (pure v) (pure v) :=
  ⟨.pure h, .pure h, fun _ _ _ => .inl ⟨rfl, rfl⟩⟩

theorem Couples.throw {fault : Fault} (h : ends (.error fault)) :
    C.Couples D ends (throw fault) (throw fault) :=
  ⟨.throw h, .throw h, fun _ _ _ => .inl ⟨rfl, rfl⟩⟩

theorem Couples.ofExcept {e : Except Fault α} (h : ends e) :
    C.Couples D ends (Action.ofExcept e) (Action.ofExcept e) := by
  refine ⟨.ofExcept h, .ofExcept h, fun s _ _ => .inl ?_⟩
  rw [Agree, result_ofExcept, result_ofExcept, final_ofExcept, final_ofExcept]
  exact ⟨rfl, rfl⟩

theorem Couples.step (h : D.Ends ends x)
    (hmeet : ∀ s, D.holds s → C.admits s.limits → C.Meet x x s) : C.Couples D ends x x :=
  ⟨h, h, hmeet⟩

theorem Couples.read {f g : Session → Action Session α}
    (hg : ∀ s limits, g (s.withLimits limits) = g s) (h : ∀ s, C.Couples D ends (f s) (g s)) :
    C.Couples D ends ((get : Action Session Session) >>= f)
      ((get : Action Session Session) >>= g) := by
  refine ⟨fun s hs => (h s).left s hs, fun s hs => (h s).right s hs, fun s hs hadmits => ?_⟩
  have hmeet := (h s).meet s hs hadmits
  unfold Meet Agree Cut result final at hmeet ⊢
  rw [Action.get_bind, Action.get_bind, other, hg]
  exact hmeet

theorem Couples.get_bind {f g : Session → Action Session α}
    (hsame : ∀ limits, C.admits limits → C.limits limits = limits)
    (h : ∀ s, C.Couples D ends (f s) (g s)) :
    C.Couples D ends ((get : Action Session Session) >>= f)
      ((get : Action Session Session) >>= g) := by
  refine ⟨fun s hs => (h s).left s hs, fun s hs => (h s).right s hs, fun s hs hadmits => ?_⟩
  have hmeet := (h s).meet s hs hadmits
  have hother : C.other s = s := by
    rw [other, hsame _ hadmits, withLimits_self]
  unfold Meet Agree Cut result final at hmeet ⊢
  rw [hother] at hmeet ⊢
  exact hmeet

theorem Couples.imp {ends' : Except Fault α → Prop} (h : C.Couples D ends a b)
    (himp : ∀ e, ends e → ends' e) : C.Couples D ends' a b :=
  ⟨h.left.imp himp, h.right.imp himp, h.meet⟩

variable (hC : C.Suits D)
include hC

theorem Couples.bind (h : C.Couples D ends a b)
    (hok : ∀ v, ends (.ok v) → C.Couples D ends' (f v) (g v))
    (herror : ∀ fault, ends (.error fault) → ends' (.error fault)) :
    C.Couples D ends' (a >>= f) (b >>= g) := by
  refine ⟨h.left.bind (fun v hv => (hok v hv).left) herror,
    h.right.bind (fun v hv => (hok v hv).right) herror, fun s hs hadmits => ?_⟩
  obtain ⟨hholds, hallows, hends⟩ := h.left s hs
  obtain hagree | ⟨fault, hcut, hr, hahead⟩ := h.meet s hs hadmits
  · have hadmits' : C.admits (a.final s).limits := hC.admits _ _ hadmits hallows
    exact meet_of_agree hagree fun v hv => (hok v (hv ▸ hends)).meet _ hholds hadmits'
  · refine .inr ⟨fault, hcut, result_bind_error hr, ?_⟩
    rw [final_bind_error hr]
    obtain ⟨hholds', hallows', hends'⟩ := h.right (C.other s) (hC.holds s hadmits hs)
    cases hb : b.result (C.other s) with
    | ok v =>
        rw [final_bind_ok hb]
        exact hC.onward _ _ _ ((hok v (hb ▸ hends')).right _ hholds').2.1 hahead
    | error later =>
        rw [final_bind_error hb]
        exact hahead

theorem Both.bind {rules : HostRules} {kind : α → Prop} {kind' : β → Prop}
    (h : C.Both D rules kind a b) (hok : ∀ v, kind v → C.Both D rules kind' (f v) (g v)) :
    C.Both D rules kind' (a >>= f) (b >>= g) :=
  Couples.bind hC h hok fun _ hfault => hfault

theorem Couples.after {x : Action Session α} (h : D.Permits x)
    (hr : ∀ s, ∃ v, x.result s = .ok v) (hagree : ∀ s, C.admits s.limits → C.Agree x x s)
    (hnext : ∀ v, C.Couples D ends' (f v) (g v)) :
    C.Couples D ends' (x >>= f) (x >>= g) := by
  have hstep : C.Couples D (fun e => ∃ v, e = .ok v) x x :=
    .step (h.andEnds hr) fun s _ hadmits => .inl (hagree s hadmits)
  exact hstep.bind hC (fun v _ => hnext v) nofun

theorem Both.andThen {rules : HostRules} {kind' : β → Prop}
    (h : C.Both D rules (fun _ => True) a b) (hok : ∀ v, C.Both D rules kind' (f v) (g v)) :
    C.Both D rules kind' (a >>= f) (b >>= g) :=
  Both.bind hC h fun v _ => hok v

/-- The end of an action may be looked at where nothing cuts a run short. -/
theorem Couples.attempt_bind {next next' : Except Fault α → Action Session β}
    (h : C.Couples D ends a b) (hcut : ∀ fault, ¬ C.cut fault)
    (hnext : ∀ e, ends e → C.Couples D ends' (next e) (next' e)) :
    C.Couples D ends' (a.attempt >>= next) (b.attempt >>= next') := by
  refine ⟨h.left.attempt_bind fun e he => (hnext e he).left,
    h.right.attempt_bind fun e he => (hnext e he).right, fun s hs hadmits => ?_⟩
  obtain ⟨hholds, hallows, hends⟩ := h.left s hs
  obtain ⟨hr, hf⟩ | ⟨fault, hfault, -⟩ := h.meet s hs hadmits
  · have hadmits' : C.admits (a.final s).limits := hC.admits _ _ hadmits hallows
    have hmeet := (hnext _ hends).meet _ hholds hadmits'
    unfold Meet Agree Cut at hmeet ⊢
    rw [result_bind_ok result_attempt, final_bind_ok result_attempt, final_attempt,
      result_bind_ok result_attempt, final_bind_ok result_attempt, final_attempt, hr, hf]
    exact hmeet
  · exact absurd hfault (hcut fault)

end Combinators

section Steps

variable (hC : C.Lawful) {s : Session} (hs : C.admits s.limits)

theorem agree_of_limits {x : Action Session α} (h : C.limits s.limits = s.limits)
    (hx : (x.final s).limits = s.limits) : C.Agree x x s := by
  have hsame : C.other s = s := by
    rw [other, h, withLimits_self]
  have hfinal : C.other (x.final s) = x.final s := by
    rw [other, hx, h, ← hx, withLimits_self]
  rw [Agree, hsame, hfinal]
  exact ⟨rfl, rfl⟩

theorem other_of_limits {t : Session} (h : t.limits = s.limits) :
    C.other t = t.withLimits (C.limits s.limits) := by
  rw [other, h]

/-- The reset behind an evaluation at the top is the same under all limits. -/
theorem Couples.atTop {ends : Except Fault α → Prop} {a b : Action Session α}
    (h : C.Couples D ends a b)
    (hreset : ∀ s, D.holds s → s.depth = 0 → D.holds { s with scratch := s.scratch.reset } ∧
      D.allows s { s with scratch := s.scratch.reset }) :
    C.Couples D ends (Session.atTop a) (Session.atTop b) := by
  refine ⟨h.left.atTop hreset, h.right.atTop hreset, fun s hs hadmits => ?_⟩
  have hemitted : ∀ {x : Action Session α} {s},
      ((Session.atTop x).final s).emitted = (x.final s).emitted := by
    intro x s
    rw [Discipline.final_atTop]
    split_ifs <;> rfl
  unfold Meet Agree Cut
  rw [Discipline.result_atTop, Discipline.result_atTop, hemitted, hemitted]
  obtain ⟨hr, hf⟩ | hcut := h.meet s hs hadmits
  · refine .inl ⟨hr, ?_⟩
    rw [Discipline.final_atTop, Discipline.final_atTop, hf]
    have hdepth : (C.other (a.final s)).depth = (a.final s).depth := rfl
    rw [hdepth]
    split_ifs
    · have hlimits : Session.limits { a.final s with scratch := (a.final s).scratch.reset } =
          (a.final s).limits := by
        simp only [Session.limits, Scope.limit_reset]
      rw [other_of_limits hlimits]
      simp only [other, withLimits, Scope.reset_withLimit]
    · rfl
  · exact .inr hcut

include hC hs

theorem meet_onScratch {action : Action Scope α} (h : Scope.UpToLimit action) :
    C.Meet (onScratch action) (onScratch action) s := by
  have hlimits : ((onScratch action).final s).limits = s.limits := by
    rw [final_onScratch]
    simp only [Session.limits, h.limit]
  obtain hsame | ⟨hle, hcut⟩ := hC.covers s.limits hs
  · exact .inl (agree_of_limits hsame hlimits)
  · obtain ⟨hr, hf⟩ | ⟨fault, hresource, hr⟩ := h.larger s.scratch _ hle.scratch
    · refine .inl ⟨?_, ?_⟩
      · rw [result_onScratch, result_onScratch]
        exact hr
      · rw [other_of_limits hlimits, final_onScratch, final_onScratch]
        exact congrArg (fun scratch => { C.other s with scratch := scratch }) hf
    · refine .inr ⟨fault, hcut fault hresource, ?_, ?_⟩
      · rw [result_onScratch, hr]
      · rw [final_onScratch, final_onScratch]
        exact hC.refl s.emitted

theorem meet_onArena {action : Action Scope α} (h : Scope.UpToLimit action) :
    C.Meet (onArena action) (onArena action) s := by
  have hlimits : ((onArena action).final s).limits = s.limits := by
    rw [final_onArena]
    simp only [Session.limits, h.limit]
  obtain hsame | ⟨hle, hcut⟩ := hC.covers s.limits hs
  · exact .inl (agree_of_limits hsame hlimits)
  · obtain ⟨hr, hf⟩ | ⟨fault, hresource, hr⟩ := h.larger s.arena _ hle.arena
    · refine .inl ⟨?_, ?_⟩
      · rw [result_onArena, result_onArena]
        exact hr
      · rw [other_of_limits hlimits, final_onArena, final_onArena]
        exact congrArg (fun arena => { C.other s with arena := arena }) hf
    · refine .inr ⟨fault, hcut fault hresource, ?_, ?_⟩
      · rw [result_onArena, hr]
      · rw [final_onArena, final_onArena]
        exact hC.refl s.emitted

theorem meet_enter : C.Meet enter enter s := by
  have hlimits : (enter.final s).limits = s.limits := by
    rw [final, enter_eq]
    split_ifs <;> rfl
  obtain hsame | ⟨hle, hcut⟩ := hC.covers s.limits hs
  · exact .inl (agree_of_limits hsame hlimits)
  · by_cases hroom : s.depth < s.maxDepth
    · have hroom' : (C.other s).depth < (C.other s).maxDepth := Int.lt_of_lt_of_le hroom hle.maxDepth
      obtain ⟨hr, hf⟩ := eq_ok_iff.mp (enter_of_room hroom)
      obtain ⟨hr', hf'⟩ := eq_ok_iff.mp (enter_of_room hroom')
      refine .inl ⟨hr'.trans hr.symm, ?_⟩
      rw [other_of_limits hlimits, hf, hf']
      rfl
    · obtain ⟨hr, hf⟩ := eq_error_iff.mp (enter_of_no_room (Int.not_lt.mp hroom))
      refine .inr ⟨_, hcut _ (.inr rfl), hr, ?_⟩
      have hemitted : (enter.final (C.other s)).emitted = s.emitted := by
        rw [final, enter_eq]
        split_ifs <;> rfl
      rw [hf, hemitted]
      exact hC.refl s.emitted

end Steps

end Coupling

end MacroScript
