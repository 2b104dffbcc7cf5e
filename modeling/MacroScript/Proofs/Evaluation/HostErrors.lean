import MacroScript.Proofs.Evaluation.HostRuns
import MacroScript.Proofs.Evaluation.TidyRuns
import MacroScript.Proofs.Session.Idle

/-!
# What a chat host gets to see of errors

While hosts only evaluate, every evaluation is tidy. So no buffer is found
closed, no binding is missed, and no value of the host is taken for an
expression; what is left are errors with a text for the user and exhausted
scopes.

A failure of a host function is wrapped once, by the call of that function. On
the way out the error passes the builtins and the defined functions, which clean
up, and host functions that get it as the answer to a request and do not catch
it. The evaluations on that way are named one by one: each asks for the next.
-/
namespace MacroScript

/-- Hosts only evaluate, and do so at the top only where that is stated. A function held to the
protocol may return anything, and may fail in an error of evaluation, in any ordinary way of its own
but exhausted memory that can be put into words, and in what an evaluation gave it. -/
def HostRules.evaluatingOnly (top : Prop) : HostRules where
  hosts := True
  value v := ∃ e, v = .expr e
  fault f := (Evaluator.shownFault? f).isSome ∨ f.errorClass? = some .outOfMemory
  atTop := top
  resets := False
  closes := False
  binds := False
  unbinds := False

theorem HostRules.evaluatingOnly_considerate (top : Prop) :
    (evaluatingOnly top).Considerate fun _ => False where
  literal e _ := ⟨e, rfl⟩
  plain _ _ h := h.elim
  ownError _ _ := .inl rfl
  exhausted _ _ _ := .inr rfl
  malformed _ := .inl rfl
  accessor := by
    rintro _ ⟨e, rfl⟩ h
    cases h
  notBindable := by
    rintro _ ⟨e, rfl⟩ h
    cases h
  guarded name fault h := by
    cases fault with
    | foreign reason => rcases h with h | h <;> cases h
    | unspeakable kind failure => rcases h with h | h <;> cases h
    | _ => exact h
  resets := nofun
  closes := nofun
  unbinds := nofun

namespace Evaluator

/-- The second evaluator answers as the first one does, but emits a text when it is asked for one
particular evaluation. -/
structure Marks (ev ev' : Evaluator) (e : Expr) (t : Session) : Prop where
  there : ev' e t = (ev e).ensuring (Session.emit "") t
  elsewhere : ∀ e' t', (e', t') ≠ (e, t) → ev' e' t' = ev e' t'

/-- In the state `s` the action asks for the evaluation of `e` in the state `t`. Nothing that is
emitted is ever taken back, so it can be told by a mark. -/
def Asks (action : Evaluator → Action Session HostValue) (ev : Evaluator) (s : Session) (e : Expr)
    (t : Session) : Prop :=
  ∀ ev', ev.Marks ev' e t → action ev' s ≠ action ev s

variable {ev ev' : Evaluator} {e : Expr} {t : Session}

open Classical in
theorem exists_marks (ev : Evaluator) (e : Expr) (t : Session) : ∃ ev', ev.Marks ev' e t := by
  refine ⟨fun e' t' => if (e', t') = (e, t) then (ev e').ensuring (Session.emit "") t' else ev e' t',
    if_pos rfl, fun e' t' h => if_neg h⟩

theorem Marks.evaluates {D : Discipline} {rules : HostRules} (hm : ev.Marks ev' e t)
    (hev : D.Evaluates rules ev) (hemit : D.Permits (Session.emit "")) :
    D.Evaluates rules ev' := by
  intro e' s hs
  by_cases h : (e', s) = (e, t)
  · cases h
    have hkeeps : D.Keeps rules rules.value ((ev e).ensuring (Session.emit "")) :=
      Discipline.Keeps.ensuring (hev e) (hemit.andEnds fun _ => trivial)
    unfold Action.final Action.result
    rw [hm.there]
    exact hkeeps t hs
  · unfold Action.final Action.result
    rw [hm.elsewhere e' s h]
    exact hev e' s hs

end Evaluator

/-- In the course of an evaluation the host function `name` fails for the given reason, and no host
function on the way out catches the error. -/
inductive RaisesWithin (name : String) (reason : Foreign) : Nat → Expr → Session → Prop
  /-- The call that fails. -/
  | raised {levels : Nat} {called : String} {fn : Function} {args : List Expr} {s : Session} :
      s.depth < s.maxDepth → s.functions.find? called = some fn → fn.isHost = true →
      fn.name = name → reason.kind.isWrapped = true →
      (fn.callRaw (evaluateWith levels) args).result { s with depth := s.depth + 1 } =
        .error (.foreign reason) →
      RaisesWithin name reason (levels + 1) (.call called args) s
  /-- A variable, a builtin or a defined function asks for the evaluation. -/
  | asked {levels : Nat} {e e' : Expr} {s t : Session} :
      s.depth < s.maxDepth →
      (∀ called args fn, e = .call called args → s.functions.find? called = some fn →
        ¬ fn.IsHosted) →
      Evaluator.Asks (fun ev => evaluateStep ev e) (evaluateWith levels)
        { s with depth := s.depth + 1 } e' t →
      RaisesWithin name reason levels e' t →
      RaisesWithin name reason (levels + 1) e s
  /-- A host function comes to a request that asks for it. Given the error as the answer, it may
  still tidy up, and passes the error on. -/
  | requested {levels number registration : Nat} {called : String} {fn : Function}
      {args : List Expr} {host : HostFunction} {q : HostProgram}
      {request : Evaluator → Action Session HostValue}
      {next : Except Fault HostValue → HostProgram} {e : Expr} {s counted t u after : Session} :
      s.depth < s.maxDepth → s.functions.find? called = some fn →
      fn.body = .hosted registration host →
      Session.countCall registration { s with depth := s.depth + 1 } = .ok number counted →
      (host number args).ComesTo (evaluateWith levels) counted q t →
      q.Awaits request next →
      Evaluator.Asks request (evaluateWith levels) t e u →
      RaisesWithin name reason levels e u →
      (next (.error (.eval (.hostFailed name reason)))).ComesTo (evaluateWith levels)
        ((request (evaluateWith levels)).final t)
        (.fail (.eval (.hostFailed name reason))) after →
      RaisesWithin name reason (levels + 1) (.call called args) s

open MacroScript.Action Session

theorem result_evaluateWith {s : Session} (h : s.depth < s.maxDepth) (levels : Nat) (e : Expr) :
    (evaluateWith (levels + 1) e).result s =
      (evaluateStep (evaluateWith levels) e).result { s with depth := s.depth + 1 } := by
  obtain ⟨hr, hf⟩ := eq_ok_iff.mp (enter_of_room h)
  unfold evaluateWith
  rw [result_bind_ok hr, hf, result_ensuring_ok result_leave]

section Call

variable {s : Session} {called : String} {fn : Function} (hfind : s.functions.find? called = some fn)
include hfind

theorem result_evaluateWith_call (h : s.depth < s.maxDepth) (levels : Nat) (args : List Expr) :
    (evaluateWith (levels + 1) (.call called args)).result s =
      fn.seen ((fn.callRaw (evaluateWith levels) args).result { s with depth := s.depth + 1 }) := by
  have hstep := evaluateStep_call (s := { s with depth := s.depth + 1 }) hfind
  rw [result_evaluateWith h, result, hstep, ← Function.result_call]
  rfl

end Call

namespace Coupling

open Discipline

/-- A run is compared with one under the same limits up to one particular fault. -/
def upToFault (fault : Fault) : Coupling where
  admits _ := True
  limits := id
  cut := (· = fault)
  ahead _ _ := True

theorem other_upToFault (fault : Fault) (s : Session) : (upToFault fault).other s = s :=
  s.withLimits_self

theorem upToFault_lawful {fault : Fault}
    (h : ∀ name, Function.guardedFault name fault = fault) : (upToFault fault).Lawful where
  covers _ _ := .inl rfl
  refl _ := trivial
  trans _ _ := trivial
  guarded name _ := by
    rintro rfl
    exact h name

/-- A mark on an evaluation that ends in the fault makes no other difference. -/
theorem upToFault_matches {D : Discipline} {rules : HostRules} {fault : Fault} {ev ev' : Evaluator}
    {e : Expr} {t : Session} (hm : ev.Marks ev' e t) (hev : D.Evaluates rules ev)
    (hemit : D.Permits (emit "")) (h : D.holds t → (ev e).result t = .error fault) :
    (upToFault fault).Matches D rules ev ev' := by
  refine fun e' => ⟨hev e', hm.evaluates hev hemit e', fun s hs _ => ?_⟩
  by_cases hthere : (e', s) = (e, t)
  · cases hthere
    exact .inr ⟨fault, rfl, h hs, trivial⟩
  · refine .inl ?_
    rw [Agree, other_upToFault, other_upToFault, result, final, hm.elsewhere e' s hthere]
    exact ⟨rfl, rfl⟩

/-- If the marked run goes another way, the fault has cut the run short. -/
theorem result_of_meet_upToFault {α : Type} {fault : Fault} {a b : Action Session α} {s : Session}
    (h : (upToFault fault).Meet a b s) (hne : b s ≠ a s) : a.result s = .error fault := by
  obtain ⟨hr, hf⟩ | ⟨_, rfl, hr, -⟩ := h
  · rw [other_upToFault] at hr
    rw [other_upToFault, other_upToFault] at hf
    exact absurd (apply_eq hr hf) hne
  · exact hr

end Coupling

namespace RaisesWithin

open Discipline

variable {name : String} {reason : Foreign} {levels : Nat} {e : Expr} {s : Session} {top : Prop}

/-- Where an evaluation ends in the error, a mark on it tells all that asks for it, and what asks for
it without catching the error ends in it too. -/
theorem exists_marked {D : Discipline} {rules : HostRules} {inside : BufferId → Discipline}
    {fault : Fault} {ev : Evaluator} (L : D.Lawful rules inside) (hev : D.Evaluates rules ev)
    (h : D.holds s → (ev e).result s = .error fault) :
    ∃ ev', ev.Marks ev' e s ∧ (Coupling.upToFault fault).Matches D rules ev ev' := by
  obtain ⟨ev', hm⟩ := Evaluator.exists_marks ev e s
  exact ⟨ev', hm, Coupling.upToFault_matches hm hev (L.emit "") h⟩

/-- The error comes out of every evaluation that encloses the failure. -/
theorem result_evaluateWith (h : RaisesWithin name reason levels e s)
    (hs : (idle (.evaluatingOnly top) fun _ => False).holds s) :
    (evaluateWith levels e).result s = .error (.eval (.hostFailed name reason)) := by
  have hlawful : (Coupling.upToFault (.eval (.hostFailed name reason))).Lawful :=
    Coupling.upToFault_lawful fun _ => rfl
  have T := Coupling.tidy_lifts hlawful (HostRules.evaluatingOnly_considerate top) fun _ _ _ => rfl
  have L := T.discipline
  induction h with
  | @raised levels called fn args s hroom hfind hhost hname hkind hraised =>
      rw [result_evaluateWith_call hfind hroom, hraised, Function.seen, if_pos hhost,
        Function.guardedFault, if_pos hkind, hname]
  | @asked levels e e' s t hroom hown hasks hinner ih =>
      obtain ⟨ev', hm, hmatches⟩ :=
        exists_marked L (L.evaluateWith levels) fun ht => ih (idle_of_tidy ht)
      have hmeet := T.meet_evaluateStep hmatches (tidy_of_idle hs) trivial e
        fun called args fn he hfind hhosted => absurd hhosted (hown called args fn he hfind)
      rw [MacroScript.result_evaluateWith hroom]
      exact Coupling.result_of_meet_upToFault hmeet (hasks ev' hm)
  | @requested levels number registration called fn args host q request next e s counted t u after
      hroom hfind hbody hcount hcomes hawaits hasks hinner hpasses ih =>
      have hev := L.evaluateWith levels
      obtain ⟨ev', hm, hmatches⟩ := exists_marked L hev fun hu => ih (idle_of_tidy hu)
      obtain ⟨hq, ht⟩ := hcomes.obeys L hev ((hs.1 called fn hfind).obeys hbody number args)
        (L.holds_of_countCall hcount (tidy_of_idle hs))
      obtain ⟨kind, hboth⟩ := hawaits.both T hmatches hq
      have hfails := Coupling.result_of_meet_upToFault (hboth.meet t ht trivial) (hasks ev' hm)
      rw [result_evaluateWith_call hfind hroom, Function.result_callRaw_hosted hbody hcount,
        hawaits.result_perform hcomes hfails hpasses, Function.seen]
      split_ifs <;> rfl

end RaisesWithin

end MacroScript
