import MacroScript.Proofs.Evaluation.Lawful

/-!
# Host programs request by request

Answering the first request of a host program leaves a program again, in the
state that the request has left. What a program comes to in this way shows where
it stands in the midst of a run: which evaluation it asks for, and what it goes
on to do with the answer. A program that follows the rules does so at each point
of its run.
-/
namespace MacroScript

open MacroScript.Action Session Discipline

namespace HostProgram

/-- What is left behind a request that gives its end to the rest of the program. -/
def answered {α : Type} (request : Action Session α) (next : Except Fault α → HostProgram)
    (s : Session) : HostProgram × Session :=
  (next (request.result s), request.final s)

/-- What is left of a program behind its first request, and the state then. A program that has come
to its end stays there. -/
def advance (ev : Evaluator) (p : HostProgram) (s : Session) : HostProgram × Session :=
  match p with
  | .done _ | .fail _ => (p, s)
  | .evaluate e next => answered (ev e) next s
  | .evaluateTop e next => answered (ev.evaluateTop e) next s
  | .run text sourceName next => answered (ev.run text sourceName) next s
  | .execute text sourceName next => answered (ev.execute text sourceName) next s
  | .resetScratch next => (next, Session.resetScratch.final s)
  | .close next => (next, Session.close.final s)
  | .observe next => (next s.view, s)
  | .setVar name value next => (next, (Session.setVar name (.expr value)).final s)
  | .bindVar name value next => answered (Session.bindVar name (.expr value)) next s
  | .unbindVar name next => answered (Session.unbindVar name) next s

/-- Performed from the state `s`, the program comes to be `q` in the state `t`. -/
inductive ComesTo (ev : Evaluator) : HostProgram → Session → HostProgram → Session → Prop
  | here (p : HostProgram) (s : Session) : ComesTo ev p s p s
  | behind {p q : HostProgram} {s t : Session} :
      ComesTo ev (p.advance ev s).1 (p.advance ev s).2 q t → ComesTo ev p s q t

/-- The first request of the program is for evaluations, and an error in them comes to the rest of
the program. A text that is run for a chat host is another matter: its errors are caught already. -/
inductive Awaits :
    HostProgram → (Evaluator → Action Session HostValue) → (Except Fault HostValue → HostProgram) → Prop
  | evaluate (e : Expr) (next : Except Fault HostValue → HostProgram) :
      Awaits (.evaluate e next) (fun ev => ev e) next
  | evaluateTop (e : Expr) (next : Except Fault HostValue → HostProgram) :
      Awaits (.evaluateTop e next) (fun ev => ev.evaluateTop e) next
  | run (text : String) (sourceName : Option String)
      (next : Except Fault HostValue → HostProgram) :
      Awaits (.run text sourceName next) (fun ev => ev.run text sourceName) next

variable {ev ev' : Evaluator} {p q : HostProgram} {s t : Session}
  {request : Evaluator → Action Session HostValue} {next : Except Fault HostValue → HostProgram}

theorem attempt_answered {α : Type} (request : Action Session α)
    (next : Except Fault α → HostProgram) :
    (request.attempt >>= fun answer => (next answer).perform ev) s =
      (answered request next s).1.perform ev (answered request next s).2 := by
  rw [Action.bind_ok result_attempt, final_attempt]
  rfl

/-- The rest of a program does what is left to do. -/
theorem perform_advance (ev : Evaluator) (p : HostProgram) (s : Session) :
    (p.advance ev s).1.perform ev (p.advance ev s).2 = p.perform ev s := by
  cases p with
  | evaluate e next => exact (attempt_answered (ev e) next).symm
  | evaluateTop e next => exact (attempt_answered (ev.evaluateTop e) next).symm
  | run text sourceName next => exact (attempt_answered (ev.run text sourceName) next).symm
  | execute text sourceName next => exact (attempt_answered (ev.execute text sourceName) next).symm
  | bindVar name value next => exact (attempt_answered (Session.bindVar name (.expr value)) next).symm
  | unbindVar name next => exact (attempt_answered (Session.unbindVar name) next).symm
  | _ => rfl

theorem ComesTo.perform (h : ComesTo ev p s q t) : q.perform ev t = p.perform ev s := by
  induction h with
  | here p s => rfl
  | behind h ih => exact ih.trans (perform_advance ev _ _)

theorem Awaits.advance (h : q.Awaits request next) :
    q.advance ev t = answered (request ev) next t := by
  cases h <;> rfl

/-- A program that passes on the error in which a request ends, ends in it itself. -/
theorem Awaits.result_perform {fault : Fault} {u : Session} (h : q.Awaits request next)
    (hcomes : ComesTo ev p s q t) (hfails : (request ev).result t = .error fault)
    (hpasses : ComesTo ev (next (.error fault)) ((request ev).final t) (.fail fault) u) :
    (p.perform ev).result s = .error fault := by
  have hbehind := perform_advance ev q t
  rw [h.advance, answered, hfails, ← hpasses.perform, hcomes.perform] at hbehind
  rw [result, ← hbehind]
  rfl

section Rules

variable {D : Discipline} {rules : HostRules} {inside : BufferId → Discipline}
  {ends : Except Fault HostValue → Prop}

theorem answered_obeys {α : Type} {kind : Except Fault α → Prop} {request : Action Session α}
    {next : Except Fault α → HostProgram} (h : D.Ends kind request)
    (hnext : ∀ answer, kind answer → (next answer).Obeys rules ends) (hs : D.holds s) :
    (answered request next s).1.Obeys rules ends ∧ D.holds (answered request next s).2 := by
  obtain ⟨hholds, -, hend⟩ := h s hs
  exact ⟨hnext _ hend, hholds⟩

theorem advance_obeys (L : D.Lawful rules inside) (hev : D.Evaluates rules ev)
    (hp : p.Obeys rules ends) (hs : D.holds s) :
    (p.advance ev s).1.Obeys rules ends ∧ D.holds (p.advance ev s).2 := by
  have T := L.lifts
  have hmatches : Coupling.alone.Matches D rules ev ev :=
    fun e => Coupling.alone_couples (hev e) (hev e)
  cases p with
  | done result => exact ⟨hp, hs⟩
  | fail fault => exact ⟨hp, hs⟩
  | evaluate e next => exact answered_obeys (hev e) hp hs
  | evaluateTop e next => exact answered_obeys (T.evaluateTop hmatches hp.1 e).left hp.2 hs
  | run text sourceName next =>
      exact answered_obeys (Discipline.run_keeps (fun e => (T.evaluateTop hmatches hp.1 e).left)
        (L.malformed hp.1) text sourceName) hp.2 hs
  | execute text sourceName next =>
      exact answered_obeys
        (T.execute hmatches hp.1 (fun _ h => h) text sourceName).left hp.2 hs
  | resetScratch next => exact ⟨hp.2, (L.resetScratch hp.1 s hs).1⟩
  | close next => exact ⟨hp.2, (L.close hp.1 s hs).1⟩
  | observe next => exact ⟨hp s.view, hs⟩
  | setVar name value next => exact ⟨hp.2, (L.setVar name value (.inl hp.1) s hs).1⟩
  | bindVar name value next =>
      refine answered_obeys (L.bindVar hp.1 name value).bindVar ?_ hs
      rintro _ (rfl | rfl)
      · exact hp.2.1
      · exact hp.2.2
  | unbindVar name next =>
      refine answered_obeys (L.unbindVar hp.1 name).unbindVar ?_ hs
      rintro _ (rfl | rfl)
      · exact hp.2.1
      · exact hp.2.2

/-- A program keeps to the rules, and the state in order, wherever it has come to. -/
theorem ComesTo.obeys (L : D.Lawful rules inside) (hev : D.Evaluates rules ev)
    (h : ComesTo ev p s q t) (hp : p.Obeys rules ends) (hs : D.holds s) :
    q.Obeys rules ends ∧ D.holds t := by
  induction h with
  | here p s => exact ⟨hp, hs⟩
  | behind h ih =>
      obtain ⟨hp', hs'⟩ := advance_obeys L hev hp hs
      exact ih hp' hs'

theorem Awaits.both {C : Coupling} (T : C.Lifts D rules inside) (hev : C.Matches D rules ev ev')
    (h : q.Awaits request next) (hq : q.Obeys rules ends) :
    ∃ kind, C.Both D rules kind (request ev) (request ev') := by
  cases h with
  | evaluate e next => exact ⟨_, hev e⟩
  | evaluateTop e next => exact ⟨_, T.evaluateTop hev hq.1 e⟩
  | run text sourceName next =>
      exact ⟨_, Coupling.run_both T.suits (T.evaluateTop hev hq.1) (T.discipline.malformed hq.1)
        text sourceName⟩

end Rules

end HostProgram

variable {registration number : Nat} {s counted : Session}

theorem Discipline.Lawful.holds_of_countCall {D : Discipline} {rules : HostRules}
    {inside : BufferId → Discipline} (L : D.Lawful rules inside)
    (hcount : Session.countCall registration s = .ok number counted) (hs : D.holds s) :
    D.holds counted := by
  obtain ⟨-, hfinal⟩ := eq_ok_iff.mp hcount
  exact hfinal ▸ (L.countCall registration s hs).1

theorem Function.result_callRaw_hosted {ev : Evaluator} {fn : Function} {args : List Expr}
    {host : HostFunction} (hbody : fn.body = .hosted registration host)
    (hcount : countCall registration s = .ok number counted) :
    (fn.callRaw ev args).result s = ((host number args).perform ev).result counted := by
  unfold callRaw
  rw [hbody]
  dsimp only
  rw [result, bind_of_ok hcount, ← result]

end MacroScript
