import MacroScript.Proofs.Action.Row
import MacroScript.Proofs.Evaluation.Buffers

/-!
# Repetitions

`repeat` evaluates its body so many times and holds the strings. Where the scratch
scope has no limit, what is held already makes no difference to the rounds that
follow. A call with a sum as its count therefore does the same as two calls, of
which the second takes up where the first has ended, and its text is the texts of
both together.
-/
namespace MacroScript

open MacroScript.Action Session

namespace Builtin

/-- Evaluate a body and hold the text, if it comes to a string. -/
def round (ev : Evaluator) (body : Expr) (id : BufferId) : Action Session Unit := do
  match ← ev body with
  | .expr (.string text) => onScratch (Scope.write id text)
  | _ => pure ()

/-- What `repeat` does while it has a buffer. -/
def repeatInto (ev : Evaluator) (body : Expr) (count : Nat) (id : BufferId) :
    Action Session HostValue := do
  repeatBody ev body id count
  if ((← get).scratch.buffer id).size = 0 then return .expr .void
  else return .expr (.string (← onScratch (Scope.contents id)))

theorem repeatBody_eq (ev : Evaluator) (body : Expr) (id : BufferId) (count : Nat) :
    repeatBody ev body id count = inTurn (List.replicate count (round ev body id)) := by
  induction count with
  | zero => rfl
  | succ count ih =>
      rw [List.replicate_succ, inTurn, ← ih, repeatBody, round, bind_assoc]
      congr 1
      funext v
      cases v with
      | expr e => cases e <;> rfl
      | _ => rfl

end Builtin

/-- What `repeat` makes of the text that it has held. -/
def HostValue.collected (text : String) : HostValue :=
  if text = "" then .expr .void else .expr (.string text)

theorem HostValue.eq_of_collected {text shown : String}
    (h : collected text = .expr (.string shown)) : text = shown := by
  unfold collected at h
  split_ifs at h
  · cases h
  · cases h
    rfl

theorem Builtin.repeatInto_eq {ev : Evaluator} {body : Expr} {count : Nat} {o : Scope} {t : Session}
    {pieces : List String}
    (h : ((inTurn (List.replicate count (round ev body o.buffers.length))).final t).scratch =
      o.collecting pieces) :
    (repeatInto ev body count o.buffers.length).result t =
        ((inTurn (List.replicate count (round ev body o.buffers.length))).result t).map
          (fun _ => .collected (Scope.holding pieces).text) ∧
      (repeatInto ev body count o.buffers.length).final t =
        (inTurn (List.replicate count (round ev body o.buffers.length))).final t := by
  rw [← repeatBody_eq] at h ⊢
  unfold repeatInto
  cases hr : (repeatBody ev body o.buffers.length count).result t with
  | error fault =>
      rw [result_bind_error hr, final_bind_error hr]
      exact ⟨rfl, rfl⟩
  | ok _ =>
      rw [result_bind_ok hr, final_bind_ok hr]
      generalize (repeatBody ev body o.buffers.length count).final t = u at h ⊢
      have hempty : (Scope.holding pieces).size = 0 ↔ (Scope.holding pieces).text = "" := by
        rw [Buffer.size_eq, String.length_eq_zero_iff]
      have hcontents := onScratch_ok (h ▸ Scope.contents_collecting)
      unfold result final HostValue.collected
      rw [get_bind, h, Scope.buffer_collecting]
      simp only [hempty]
      split_ifs
      · exact ⟨rfl, rfl⟩
      · rw [bind_of_ok hcontents]
        exact ⟨rfl, rfl⟩

/-- A row of rounds, and the same row where some pieces are held already. Both take place within a
call in given surroundings. -/
def joining (w : Surroundings) (base : List String) : Simulation :=
  (elsewhere (w.scratch.buffers.length + 1)).between fun s s' => s.Follows .selfContained ∧
    ∃ pieces, s.surroundings = ⟨w.maxDepth, w.depth + 1, w.scratch.collecting pieces⟩ ∧
      s' = { s with scratch := w.scratch.collecting (pieces ++ base) }

section Joining

variable {w : Surroundings} {base : List String}

theorem joining_evaluateWith (hsound : w.scratch.Sound) (hlimit : w.scratch.limit = none)
    (levels : Nat) (e : Expr) :
    (joining w base).relation.Relates (fun _ => True) (evaluateWith levels e)
      (evaluateWith levels e) := by
  rintro s _ ⟨hf, pieces, hsame, rfl⟩
  have hheld : s.scratch = w.scratch.collecting pieces := congrArg Surroundings.scratch hsame
  have hsound' : s.scratch.Sound := by
    rw [hheld]
    exact hsound.collecting
  obtain ⟨hf', hrestored, -⟩ := evaluateWith_restores hf hsound' levels e
  obtain ⟨hresult, hfinal⟩ := evaluateWith_elsewhere hf hsound'
    (hheld ▸ Scope.MatchesFrom.collecting hlimit pieces (pieces ++ base)) levels e
  refine .inr ⟨?_, hf', pieces, hrestored.trans hsame, hfinal⟩
  rw [hresult]
  cases (evaluateWith levels e).result s with
  | ok v => exact .ok trivial
  | error fault => exact .error rfl

theorem joining_write (hlimit : w.scratch.limit = none) (text : String) :
    (joining w base).relation.Relates (fun _ => True)
      (onScratch (Scope.write w.scratch.buffers.length text))
      (onScratch (Scope.write w.scratch.buffers.length text)) := by
  rintro s _ ⟨hf, pieces, hsame, rfl⟩
  have hroom : ∀ used, w.scratch.allows used = true := fun used => by rw [Scope.allows, hlimit]
  have hwrite : ∀ pieces, Scope.write w.scratch.buffers.length text (w.scratch.collecting pieces) =
      .ok () (w.scratch.collecting (text :: pieces)) := fun pieces =>
    Scope.write_collecting.trans (if_pos (hroom _))
  obtain ⟨hmaxDepth, hdepth, hheld⟩ := surroundings_eq_iff.mp hsame
  refine .of_ok trivial ?_ (onScratch_ok (hheld ▸ hwrite pieces))
    (onScratch_ok (hwrite (pieces ++ base)))
  exact ⟨hf, text :: pieces, by rw [surroundings, hmaxDepth, hdepth], rfl⟩

theorem joining_round (hsound : w.scratch.Sound) (hlimit : w.scratch.limit = none) (levels : Nat)
    (body : Expr) :
    (joining w base).relation.Relates (fun _ => True)
      (Builtin.round (evaluateWith levels) body w.scratch.buffers.length)
      (Builtin.round (evaluateWith levels) body w.scratch.buffers.length) := by
  intro s s' hstates
  refine (joining_evaluateWith hsound hlimit levels body s s' hstates).bind fun v _ _ hstates' => ?_
  split
  · exact joining_write hlimit _ _ _ hstates'
  · exact .pure trivial hstates'

/-- The two rows get equally far. -/
theorem joining_rounds (hsound : w.scratch.Sound) (hlimit : w.scratch.limit = none) {s s' : Session}
    (h : (joining w base).states s s') (levels : Nat) (body : Expr) (count : Nat) :
    let row := List.replicate count
      (Builtin.round (evaluateWith levels) body w.scratch.buffers.length)
    (joining w base).Meets (fun _ => True) (inTurn row) (inTurn row) s s' ∧
      completed row s = completed row s' := by
  intro row
  have hrow : List.Forall₂ ((joining w base).relation.Relates fun _ => True) row row := by
    refine List.forall₂_same.mpr fun action haction => ?_
    rw [List.eq_of_mem_replicate haction]
    exact joining_round hsound hlimit levels body
  exact Simulation.Meets.inTurn id hrow h

end Joining

namespace Session

/-- The session in the midst of a call that holds these pieces, the last one first. -/
def filling (s : Session) (pieces : List String) : Session :=
  { s with depth := s.depth + 1, scratch := s.scratch.collecting pieces }

def evaluator (s : Session) : Evaluator :=
  evaluateWith { s with depth := s.depth + 1 : Session }.levels

/-- The rounds of a call of `repeat`. -/
def rounds (s : Session) (body : Expr) (count : Nat) : List (Action Session Unit) :=
  List.replicate count (Builtin.round s.evaluator body s.scratch.buffers.length)

/-- How many rounds of a call of `repeat` come to their end. -/
def completedRounds (s : Session) (body : Expr) (count : Nat) : Nat :=
  completed (s.rounds body count) (s.filling [])

variable {s t : Session} {body : Expr}

/-- The rounds of a call leave its surroundings as they were, except for what is held. They do the
same where some pieces are held already, and hold their own on top of these. -/
theorem rounds_resume (hf : s.Follows .selfContained) (hsound : s.scratch.Sound)
    (hlimit : s.scratch.limit = none) (body : Expr) (count : Nat) (pieces : List String) :
    ((inTurn (s.rounds body count)).final (s.filling [])).Follows .selfContained ∧
      ∃ later, ((inTurn (s.rounds body count)).final (s.filling [])).surroundings =
          ⟨s.maxDepth, s.depth + 1, s.scratch.collecting later⟩ ∧
        (inTurn (s.rounds body count)).final (s.filling pieces) =
          { (inTurn (s.rounds body count)).final (s.filling []) with
            scratch := s.scratch.collecting (later ++ pieces) } ∧
        (inTurn (s.rounds body count)).result (s.filling pieces) =
          (inTurn (s.rounds body count)).result (s.filling []) ∧
        completed (s.rounds body count) (s.filling pieces) =
          completed (s.rounds body count) (s.filling []) := by
  have hstates : (joining s.surroundings pieces).states (s.filling []) (s.filling pieces) :=
    ⟨hf, [], rfl, rfl⟩
  obtain ⟨hmeets, hcompleted⟩ := joining_rounds hsound hlimit hstates
    { s with depth := s.depth + 1 : Session }.levels body count
  obtain ⟨hcut, -⟩ | ⟨hends, hf', later, hsame, hfinal⟩ := hmeets
  · exact hcut.elim
  · exact ⟨hf', later, hsame, hfinal, hends.eq fun h => h.symm, hcompleted.symm⟩

theorem rounds_congr (h : t.surroundings = s.surroundings) (body : Expr) (count : Nat) :
    t.rounds body count = s.rounds body count := by
  obtain ⟨hmaxDepth, hdepth, hscratch⟩ := surroundings_eq_iff.mp h
  simp only [rounds, evaluator, levels, hmaxDepth, hdepth, hscratch]

theorem rounds_add (s : Session) (body : Expr) (first second : Nat) :
    s.rounds body (first + second) = s.rounds body first ++ s.rounds body second :=
  List.replicate_add ..

theorem evaluate_repeat_of_no_room
    (hfind : s.functions.find? "repeat" = some (.ofBuiltin .repeatTimes))
    (hfull : s.maxDepth ≤ s.depth + 1) (body : Expr) (count : UInt64) :
    evaluate (.call "repeat" [body, .int count]) s =
        .error (.eval (.recursionLimit s.maxDepth)) s ∧
      s.completedRounds body count.toNat = 0 := by
  constructor
  · obtain hnone | hroom := le_or_gt s.maxDepth s.depth
    · exact evaluate_of_no_room hnone
    · rw [evaluate_builtin_of_room hfind hroom, ensuring_leave_error]
      refine ⟨{ s with depth := s.depth + 1 }, ?_, ?_⟩
      · exact bind_of_error (bind_of_error (evaluate_of_no_room hfull))
      · rw [Int.add_sub_cancel]
  · unfold completedRounds rounds
    cases count.toNat with
    | zero => rfl
    | succ count =>
        have hbody : Builtin.round s.evaluator body s.scratch.buffers.length (s.filling []) = _ :=
          bind_of_error (evaluateWith_of_no_room (s := s.filling []) hfull)
        exact completed_cons_error (eq_error_iff.mp hbody).1

section Room

variable (hfind : s.functions.find? "repeat" = some (.ofBuiltin .repeatTimes))
  (hroom : s.depth + 1 < s.maxDepth) (hsound : s.scratch.Sound) (hlimit : s.scratch.limit = none)
include hfind hroom hsound hlimit

theorem evaluate_repeat_of_room {count : UInt64} {pieces : List String}
    (hheld : ((inTurn (s.rounds body count.toNat)).final (s.filling [])).surroundings =
      ⟨s.maxDepth, s.depth + 1, s.scratch.collecting pieces⟩) :
    (evaluate (.call "repeat" [body, .int count])).result s =
        ((inTurn (s.rounds body count.toNat)).result (s.filling [])).map
          (fun _ => .collected (Scope.holding pieces).text) ∧
      (evaluate (.call "repeat" [body, .int count])).final s =
        { (inTurn (s.rounds body count.toNat)).final (s.filling []) with
          depth := s.depth
          scratch := s.scratch } := by
  have hunlimited : s.scratch.allows s.scratch.used = true := by rw [Scope.allows, hlimit]
  obtain ⟨-, hdepth, hscratch⟩ := surroundings_eq_iff.mp hheld
  have hback : ((inTurn (s.rounds body count.toNat)).final (s.filling [])).depth - 1 = s.depth := by
    rw [hdepth, Int.add_sub_cancel]
  obtain ⟨hresult, hfinal⟩ := Builtin.repeatInto_eq hscratch
  obtain ⟨hresult', hfinal'⟩ := Builtin.withBuffer_of_room (s := { s with depth := s.depth + 1 })
    hsound hunlimited ((congrArg scratch hfinal).trans hscratch)
  have hbuffer := hfinal'.trans
    (congrArg (fun t : Session => { t with scratch := s.scratch }) hfinal)
  have hcount : Builtin.evalInt s.evaluator (.int count) { s with depth := s.depth + 1 } =
      .ok count { s with depth := s.depth + 1 } :=
    bind_of_ok (evaluate_literal rfl hroom)
  have hcall : evaluate (.call "repeat" [body, .int count]) s =
      Action.ensuring (Builtin.callRepeat s.evaluator body (.int count)) leave
        { s with depth := s.depth + 1 } :=
    evaluate_builtin_of_room hfind (by omega)
  obtain ⟨hcountResult, hcountFinal⟩ := eq_ok_iff.mp hcount
  constructor
  · rw [result, hcall]
    refine (result_ensuring_ok result_leave).trans ?_
    rw [Builtin.callRepeat, result_bind_ok hcountResult, hcountFinal]
    exact hresult'.trans hresult
  · rw [final, hcall]
    refine final_ensuring.trans ?_
    rw [Builtin.callRepeat, final_bind_ok hcountResult, hcountFinal]
    refine (congrArg leave.final hbuffer).trans ?_
    exact congrArg (fun depth : Int =>
      { (inTurn (s.rounds body count.toNat)).final (s.filling []) with
        depth := depth
        scratch := s.scratch }) hback

/-- A call that fails in one of its rounds fails in the same round if it has more of them to go. -/
theorem evaluate_repeat_stopped {count first : UInt64} {rest : Nat} {fault : Fault}
    (hf : s.Follows .selfContained) (hsum : count.toNat = first.toNat + rest)
    (hfirst : (inTurn (s.rounds body first.toNat)).result (s.filling []) = .error fault) :
    (∃ t, evaluate (.call "repeat" [body, .int first]) s = .error fault t ∧
        evaluate (.call "repeat" [body, .int count]) s = .error fault t) ∧
      s.completedRounds body count.toNat = s.completedRounds body first.toNat := by
  obtain ⟨-, pieces, hsame, -⟩ := rounds_resume hf hsound hlimit body first.toNat []
  obtain ⟨hresult, hfinal⟩ := evaluate_repeat_of_room hfind hroom hsound hlimit hsame
  obtain ⟨hrow, hrounds⟩ := @inTurn_append_of_error _ _ _ (s.rounds body rest) _ _ hfirst
  rw [← rounds_add, ← hsum] at hrow hrounds
  have hrowResult : (inTurn (s.rounds body count.toNat)).result (s.filling []) = .error fault := by
    rw [← hfirst, result, hrow]
    rfl
  have hrowFinal : (inTurn (s.rounds body count.toNat)).final (s.filling []) =
      (inTurn (s.rounds body first.toNat)).final (s.filling []) := by
    rw [final, hrow]
    rfl
  rw [← hrowFinal] at hsame
  obtain ⟨hresult', hfinal'⟩ := evaluate_repeat_of_room hfind hroom hsound hlimit hsame
  rw [hfirst] at hresult
  rw [hrowResult] at hresult'
  rw [hrowFinal] at hfinal'
  exact ⟨⟨_, eq_error_iff.mpr ⟨hresult, hfinal⟩, eq_error_iff.mpr ⟨hresult', hfinal'⟩⟩, hrounds⟩

/-- A call whose rounds come to their end gives what they hold, and leaves its surroundings. -/
theorem evaluate_repeat_ended {count : UInt64} (hf : s.Follows .selfContained)
    (h : (inTurn (s.rounds body count.toNat)).result (s.filling []) = .ok ()) :
    ∃ pieces t, evaluate (.call "repeat" [body, .int count]) s =
        .ok (.collected (Scope.holding pieces).text) t ∧
      inTurn (s.rounds body count.toNat) (s.filling []) = .ok () (t.filling pieces) ∧
      t.Follows .selfContained ∧ t.surroundings = s.surroundings := by
  obtain ⟨hf', pieces, hsame, -⟩ := rounds_resume hf hsound hlimit body count.toNat []
  obtain ⟨hresult, hfinal⟩ := evaluate_repeat_of_room hfind hroom hsound hlimit hsame
  rw [h] at hresult
  have hended := eq_ok_iff.mpr ⟨h, rfl⟩
  generalize (inTurn (s.rounds body count.toNat)).final (s.filling []) = u
    at hf' hsame hfinal hended
  obtain ⟨hmaxDepth, hdepth, hscratch⟩ := surroundings_eq_iff.mp hsame
  refine ⟨pieces, { u with depth := s.depth, scratch := s.scratch },
    eq_ok_iff.mpr ⟨hresult, hfinal⟩, ?_, hf', ?_⟩
  · rw [hended, filling, ← hscratch, ← hdepth]
  · rw [surroundings, surroundings, hmaxDepth]

/-- Where some of the rounds have come to their end, the others do what a call of their own does. -/
theorem evaluate_repeat_resume {count first n : UInt64} {pieces : List String}
    (hsum : count.toNat = first.toNat + n.toNat)
    (hfirst : inTurn (s.rounds body first.toNat) (s.filling []) = .ok () (t.filling pieces))
    (hf : t.Follows .selfContained) (hsame : t.surroundings = s.surroundings)
    (hfind' : t.functions.find? "repeat" = some (.ofBuiltin .repeatTimes)) :
    (∃ fault u, evaluate (.call "repeat" [body, .int n]) t = .error fault u ∧
        evaluate (.call "repeat" [body, .int count]) s = .error fault u ∧
        s.completedRounds body count.toNat = first.toNat + t.completedRounds body n.toNat) ∨
      ∃ text u, evaluate (.call "repeat" [body, .int n]) t = .ok (.collected text) u ∧
        evaluate (.call "repeat" [body, .int count]) s =
          .ok (.collected ((Scope.holding pieces).text ++ text)) u := by
  obtain ⟨hmaxDepth, hdepth, hscratch⟩ := surroundings_eq_iff.mp hsame
  obtain ⟨hfirstResult, hfirstFinal⟩ := eq_ok_iff.mp hfirst
  -- The second call, and the same rounds on top of what the first ones hold.
  obtain ⟨-, later, hlater, hfinal, hresult, hcompleted⟩ :=
    rounds_resume hf (hscratch ▸ hsound) (hscratch ▸ hlimit) body n.toNat pieces
  obtain ⟨hsecondResult, hsecondFinal⟩ := evaluate_repeat_of_room hfind'
    (by rwa [hdepth, hmaxDepth]) (hscratch ▸ hsound) (hscratch ▸ hlimit) hlater
  -- The whole call.
  obtain ⟨hrow, hrounds⟩ := @inTurn_append_of_ok _ _ _ (s.rounds body n.toNat) _ hfirstResult
  rw [← rounds_add, ← hsum, hfirstFinal, ← rounds_congr hsame body n.toNat] at hrow hrounds
  have hrowResult : (inTurn (s.rounds body count.toNat)).result (s.filling []) =
      (inTurn (t.rounds body n.toNat)).result (t.filling []) := by
    rw [← hresult, result, hrow]
    rfl
  have hrowFinal : (inTurn (s.rounds body count.toNat)).final (s.filling []) =
      { (inTurn (t.rounds body n.toNat)).final (t.filling []) with
        scratch := t.scratch.collecting (later ++ pieces) } := by
    rw [← hfinal, final, hrow]
    rfl
  have hheld : ((inTurn (s.rounds body count.toNat)).final (s.filling [])).surroundings =
      ⟨s.maxDepth, s.depth + 1, s.scratch.collecting (later ++ pieces)⟩ := by
    rw [hrowFinal, ← hmaxDepth, ← hdepth, ← hscratch]
    exact congrArg (fun w : Surroundings =>
      { w with scratch := t.scratch.collecting (later ++ pieces) }) hlater
  obtain ⟨hwholeResult, hwholeFinal⟩ := evaluate_repeat_of_room hfind hroom hsound hlimit hheld
  rw [hrowResult] at hwholeResult
  rw [hrowFinal, ← hdepth, ← hscratch] at hwholeFinal
  cases hr : (inTurn (t.rounds body n.toNat)).result (t.filling []) with
  | error fault =>
      rw [hr] at hsecondResult hwholeResult
      refine .inl ⟨fault, _, eq_error_iff.mpr ⟨hsecondResult, hsecondFinal⟩,
        eq_error_iff.mpr ⟨hwholeResult, hwholeFinal⟩, ?_⟩
      rw [completedRounds, hrounds, hcompleted, completed_of_ok hfirstResult, rounds,
        List.length_replicate]
      rfl
  | ok _ =>
      rw [hr] at hsecondResult hwholeResult
      rw [Scope.text_holding_append] at hwholeResult
      exact .inr ⟨_, _, eq_ok_iff.mpr ⟨hsecondResult, hsecondFinal⟩,
        eq_ok_iff.mpr ⟨hwholeResult, hwholeFinal⟩⟩

end Room

/-- A call of `repeat` with a sum as its count does what two calls do. If the first of these fails,
so does the one call, in the same round. If the second fails, so does the one call, behind all rounds
of the first and as many of the second as came to their end. Otherwise its text is what both have
collected. It leaves the session in which the last of the two calls has ended. -/
theorem evaluate_repeat_add (hf : s.Follows .selfContained)
    (hfind : s.functions.find? "repeat" = some (.ofBuiltin .repeatTimes)) (hsound : s.scratch.Sound)
    (hlimit : s.scratch.limit = none) (body : Expr) {m n : UInt64}
    (hcount : m.toNat + n.toNat < 2 ^ 64)
    (hkept : ∀ v t, evaluate (.call "repeat" [body, .int m]) s = .ok v t →
      t.functions.find? "repeat" = some (.ofBuiltin .repeatTimes)) :
    let run (count : UInt64) := evaluate (.call "repeat" [body, .int count])
    (∃ fault t, run m s = .error fault t ∧ run (m + n) s = .error fault t ∧
        s.completedRounds body (m + n).toNat = s.completedRounds body m.toNat) ∨
      (∃ text t fault u, run m s = .ok (.collected text) t ∧ run n t = .error fault u ∧
        run (m + n) s = .error fault u ∧ s.completedRounds body (m + n).toNat =
          m.toNat + t.completedRounds body n.toNat) ∨
      ∃ text t text' u, run m s = .ok (.collected text) t ∧ run n t = .ok (.collected text') u ∧
        run (m + n) s = .ok (.collected (text ++ text')) u := by
  intro run
  have hsum : (m + n).toNat = m.toNat + n.toNat := by
    rw [UInt64.toNat_add, Nat.mod_eq_of_lt hcount]
  rw [hsum]
  obtain hfull | hroom := le_or_gt s.maxDepth (s.depth + 1)
  · obtain ⟨hm, hroundsm⟩ := evaluate_repeat_of_no_room hfind hfull body m
    obtain ⟨hmn, hroundsmn⟩ := evaluate_repeat_of_no_room hfind hfull body (m + n)
    rw [hsum] at hroundsmn
    exact .inl ⟨_, s, hm, hmn, hroundsmn.trans hroundsm.symm⟩
  · cases hfirst : (inTurn (s.rounds body m.toNat)).result (s.filling []) with
    | error fault =>
        obtain ⟨⟨t, hrun, hboth⟩, hrounds⟩ :=
          evaluate_repeat_stopped hfind hroom hsound hlimit hf hsum hfirst
        rw [hsum] at hrounds
        exact .inl ⟨fault, t, hrun, hboth, hrounds⟩
    | ok _ =>
        obtain ⟨pieces, t, hrun, hended, hf', hsame⟩ :=
          evaluate_repeat_ended hfind hroom hsound hlimit hf hfirst
        obtain ⟨fault, u, hsecond, hboth, hrounds⟩ | ⟨text, u, hsecond, hboth⟩ :=
          evaluate_repeat_resume hfind hroom hsound hlimit hsum hended hf' hsame (hkept _ _ hrun)
        · rw [hsum] at hrounds
          exact .inr (.inl ⟨_, t, fault, u, hrun, hsecond, hboth, hrounds⟩)
        · exact .inr (.inr ⟨_, t, text, u, hrun, hsecond, hboth⟩)

/-- A session with a variable for a text. -/
def doubling : Session :=
  { (fresh ⟨9, 200, none, none⟩).installBuiltins with
    vars := Table.empty.insert "x" (.expr (.string "a")) }

/-- A body that doubles the text and gives it. -/
def doubled : Expr :=
  .call "if" [.call "eql" [.call "let" [.var "x", .call "repeat" [.var "x", .int 2]], .int 0],
    .int 0, .var "x"]

/-- Each round begins with the text of the one before it. -/
theorem evaluate_repeat_add_doubling :
    evaluate (.call "repeat" [doubled, .int (1 + 1)]) doubling =
      .ok (.expr (.string "aaaaaa"))
        { doubling with vars := Table.empty.insert "x" (.expr (.string "aaaa")) } := by
  have hfirst : evaluate (.call "repeat" [doubled, .int 1]) doubling =
      .ok (.expr (.string "aa"))
        { doubling with vars := Table.empty.insert "x" (.expr (.string "aa")) } := by cbv
  have hsecond : evaluate (.call "repeat" [doubled, .int 1])
        { doubling with vars := Table.empty.insert "x" (.expr (.string "aa")) } =
      .ok (.expr (.string "aaaa"))
        { doubling with vars := Table.empty.insert "x" (.expr (.string "aaaa")) } := by cbv
  have hf : doubling.Follows .selfContained := Follows.installBuiltins (.fresh _)
  obtain ⟨fault, t, herror, -⟩ | ⟨text, t, fault, u, hrun, herror, -⟩ |
      ⟨text, t, text', u, hrun, hrun', hboth⟩ :=
    evaluate_repeat_add hf rfl (Scope.sound_of_kept rfl) rfl doubled (m := 1) (n := 1) (by decide)
      fun v t hrun => by
        rw [hfirst] at hrun
        cases hrun
        rfl
  · cases hfirst.symm.trans herror
  · obtain ⟨-, rfl⟩ := EStateM.Result.ok.inj (hfirst.symm.trans hrun)
    cases hsecond.symm.trans herror
  · obtain ⟨htext, rfl⟩ := EStateM.Result.ok.inj (hfirst.symm.trans hrun)
    obtain ⟨htext', rfl⟩ := EStateM.Result.ok.inj (hsecond.symm.trans hrun')
    rw [HostValue.eq_of_collected htext.symm, HostValue.eq_of_collected htext'.symm] at hboth
    exact hboth

end Session

end MacroScript
