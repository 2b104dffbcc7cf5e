import Mathlib
import MacroScript.Proofs.Evaluation.Regions
import MacroScript.Proofs.Evaluation.Tidy
import MacroScript.Proofs.Scope.Stacked

/-!
# The scratch scope is a stack

Hosts that only call back, in whatever way, cannot upset the account of the
scratch scope. Every evaluation leaves the scope as it found it. While it goes
on, what is new in the scope are the buffers of the `echo`s and `repeat`s that
enclose what is being evaluated, and each of them is open and holds exactly the
text that is charged for it.

A callback at the top resets the scope only at depth zero. A host runs in the
midst of an evaluation, where the depth is above zero.
-/
namespace MacroScript

open MacroScript.Action Session

/-- Hosts may call back in every way, and bind and set variables. -/
def HostRules.callingBack : HostRules where
  hosts := True
  value _ := True
  fault _ := True
  atTop := True
  resets := False
  closes := False
  binds := True
  unbinds := False

theorem HostRules.callingBack_considerate : callingBack.Considerate fun _ => True where
  literal _ _ := trivial
  plain _ _ _ := trivial
  ownError _ _ := trivial
  exhausted _ _ _ := trivial
  malformed _ := trivial
  accessor _ _ _ _ := trivial
  notBindable _ _ _ _ := trivial
  guarded _ _ _ := trivial
  resets := nofun
  closes := nofun
  unbinds := nofun

namespace Session

/-- The scratch scope is sound and lies on top of a former scope. -/
def StacksOn (base : Scope) (s : Session) : Prop := s.scratch.Sound ∧ base.Stacked s.scratch

/-- The same with a buffer on top that was not there before. -/
def StacksOnBelow (base : Scope) (id : BufferId) (s : Session) : Prop :=
  s.StacksOn base ∧ base.buffers.length ≤ id

end Session

namespace Discipline

variable {rules : HostRules} {plain : HostValue → Prop} {base : Scope}

theorem tidy_stays : (tidy rules plain).Stays (StacksOn base) := by
  intro s t _ _ hallows hs
  have hsame := hallows.scratch.eq hs.1
  unfold StacksOn
  rwa [hsame]

theorem filling_stays (id : BufferId) : (filling rules plain id).Stays (StacksOnBelow base id) := by
  intro s t hs ht hallows hbelow
  obtain ⟨⟨hsound, hstacked⟩, hid⟩ := hbelow
  have hfilled := hallows.scratch
  exact ⟨⟨hfilled.sound hsound, hstacked.filled hsound hid hs.2 hfilled ht.2⟩, hid⟩

theorem tidy_descends :
    ((tidy rules plain).within (StacksOn base)).Descends
      fun id => (filling rules plain id).within (StacksOnBelow base id) where
  entered s hs _ := ⟨tidy_of_idle (idle_of_tidy hs.1), hs.2⟩
  bound s _ _ _ hs hbound := ⟨⟨hs.1.1, hbound.bindsPlain hs.1.2.1, hs.1.2.2⟩, hs.2⟩
  opened s hs := by
    obtain ⟨hholds, hsound, hstacked⟩ := hs
    exact ⟨⟨hholds, s.scratch.holding_opened⟩,
      ⟨Scope.sound_opened hsound, hstacked.opened⟩, hstacked.buffers.length_le⟩
  outside _ _ hs := ⟨hs.1.1, hs.2.1⟩

theorem tidy_stacks (h : rules.Considerate plain) :
    ((tidy rules plain).within (StacksOn base)).Lawful rules
      fun id => (filling rules plain id).within (StacksOnBelow base id) :=
  (tidy_lawful h).within tidy_stays filling_stays tidy_descends

/-- What is evaluated in the course of an evaluation finds its scratch scope on top of the scope
with which that one began. -/
theorem stacksOn_of_encloses (h : rules.Considerate plain) {E F : Evaluation}
    (hencloses : E.Encloses F) (hE : (idle rules plain).holds E.start)
    (hsound : E.start.scratch.Sound) :
    (idle rules plain).holds F.start ∧ F.start.StacksOn E.start.scratch := by
  have hentered : ((tidy rules plain).within (StacksOn E.start.scratch)).holds
      { E.start with depth := E.start.depth + 1 } :=
    ⟨tidy_of_idle hE, hsound, .refl _⟩
  obtain rfl | ⟨hholds, hstacks⟩ :=
    (tidy_stacks h).eq_or_holds_of_encloses tidy_descends hencloses fun _ => hentered
  · exact ⟨hE, hsound, .refl _⟩
  · exact ⟨idle_of_tidy hholds, hstacks⟩

end Discipline

/-- Where hosts only call back, an evaluation that begins at depth zero or above leaves the scratch
scope exactly as it was, on a value and on every fault, and so does every evaluation in its course.
While any of these goes on, nothing happens to the buffers that were there when it began: what is
evaluated inside it finds the scope as it was, but for open buffers on top that hold what is charged
for them. -/
theorem Session.scratch_balanced {s : Session} (h : s.Follows .callingBack) (hdepth : 0 ≤ s.depth)
    (hsound : s.scratch.Sound) (e : Expr) :
    ((evaluate e).final s).scratch = s.scratch ∧
    ∀ F, (s.evaluation e).Encloses F → F.final.scratch = F.start.scratch ∧
      ∀ G, F.Encloses G → F.start.scratch.Stacked G.start.scratch := by
  have hrules := HostRules.callingBack_considerate
  have hs : (Discipline.idle .callingBack fun _ => True).holds s :=
    ⟨h, fun _ _ _ _ => trivial, fun _ => hdepth⟩
  have hrestored : ∀ F : Evaluation, (Discipline.idle .callingBack fun _ => True).holds F.start →
      F.start.scratch.Sound → F.final.scratch = F.start.scratch := by
    intro F hF hsoundF
    have hkept := (Discipline.evaluateWith_tidied hrules hF F.levels F.expr).2.1
    exact hkept.scratch.eq hsoundF
  constructor
  · exact hrestored (s.evaluation e) hs hsound
  · intro F hencloses
    obtain ⟨hF, hsoundF, -⟩ := Discipline.stacksOn_of_encloses hrules hencloses hs hsound
    refine ⟨hrestored F hF hsoundF, fun G hencloses' => ?_⟩
    exact (Discipline.stacksOn_of_encloses hrules hencloses' hF hsoundF).2.2

/-- A session with a host function that prints at the top before it answers. -/
def Session.withPrinter : Session :=
  .withHost ⟨5, 200, none, none⟩ "h" fun _ _ =>
    .evaluateTop (.call "echo" [.string "b"]) fun _ => .done (.expr (.string "c"))

theorem Session.withPrinter_echo :
    (evaluateStep (evaluateWith 9) (.call "echo" [.string "a", .call "h" []])).result
      { withPrinter with depth := 1 } = .ok (.expr .void) := by
  cbv

/-- The host prints at the top while the `echo` that calls it holds a text. -/
theorem Session.scratch_balanced_hostWithinEcho :
    ∃ F, (withPrinter.evaluation (.call "echo" [.string "a", .call "h" []])).Encloses F ∧
      F.expr = .call "h" [] ∧ (F.start.scratch.buffer 0).text = "a" ∧
      F.final.scratch = F.start.scratch := by
  let args : List Expr := [.string "a", .call "h" []]
  let entered : Session := { withPrinter with depth := 1 }
  let opened : Session := { entered with scratch := entered.scratch.opened }
  let filled : Session := { entered with
    scratch := { entered.scratch with used := 1, kept := [.buffer 0], buffers := [⟨["a"], false⟩] } }
  have hfollows : withPrinter.Follows .callingBack :=
    .withHost ⟨trivial, fun _ _ => ⟨trivial, fun _ _ => trivial⟩⟩
  have hasks : Evaluator.Consults (fun ev => evaluateStep ev (.call "echo" args)) (evaluateWith 9)
      entered (.call "h" []) filled := by
    refine Evaluator.consults_of_fault (.eval (.recursionLimit 0)) ?_ fun ev hfails hsame => ?_
    · rw [withPrinter_echo]
      nofun
    · have hfirst : ev (.string "a") opened = .ok (.expr (.string "a")) opened :=
        hsame (.string "a") opened nofun
      have hwrite : onScratch (Scope.write 0 "a") opened = .ok () filled := rfl
      have hprint : Builtin.printAll ev 0 args opened = .error (.eval (.recursionLimit 0)) filled := by
        unfold Builtin.printAll
        rw [bind_ok (eq_ok_iff.mp hfirst).1, (eq_ok_iff.mp hfirst).2]
        change (onScratch (Scope.write 0 "a") >>= fun _ => Builtin.printAll ev 0 [.call "h" []]) _ = _
        rw [bind_ok (eq_ok_iff.mp hwrite).1, (eq_ok_iff.mp hwrite).2, Builtin.printAll,
          bind_error (eq_error_iff.mp hfails).1, (eq_error_iff.mp hfails).2]
      have hbody : (Builtin.printAll ev 0 args >>= fun _ => onScratch (Scope.contents 0)) opened =
          .error (.eval (.recursionLimit 0)) filled := by
        rw [bind_error (eq_error_iff.mp hprint).1, (eq_error_iff.mp hprint).2]
      have hbuffer := ensuring_error hbody
        (Discipline.discard_eq ⟨rfl, List.mem_singleton.mpr rfl, rfl⟩ : Builtin.discard 0 filled = _)
      change (((Builtin.printAll ev 0 args >>= fun _ => onScratch (Scope.contents 0)).ensuring
        (Builtin.discard 0) >>= fun text => emit text >>= fun _ => pure (.expr .void)) :
          Action Session HostValue).result opened = _
      exact result_bind_error (eq_error_iff.mp hbuffer).1
  have hencloses : (withPrinter.evaluation (.call "echo" args)).Encloses ⟨9, .call "h" [], filled⟩ :=
    .nested (by decide) hasks (.itself _)
  refine ⟨_, hencloses, rfl, rfl, ?_⟩
  exact ((Session.scratch_balanced hfollows (by decide) nofun _).2 _ hencloses).1

end MacroScript
