import MacroScript.Proofs.Evaluation.Enclosed
import MacroScript.Proofs.Evaluation.Values

/-!
# Chains of variables

A variable that is bound to another variable stands for whatever that one stands
for, and so on along a chain. The bindings may lead anywhere, also back into the
chain. Each variable of the chain takes one evaluation inside the one before it,
and the value at its end takes one more, so the limit on the depth decides how
much of the chain is seen: its end, if it has one and there is room for it, and
otherwise the error of the limit. The session is left as it was in any case.
-/
namespace MacroScript

open MacroScript.Action Session

/-- The chain of variables that begins with the first name has the other name in its `k`-th place,
where the first name has place one. -/
inductive Table.Refers (vars : Table HostValue) : String → Nat → String → Prop
  | here (name : String) : vars.Refers name 1 name
  | onward {first next name : String} {k : Nat} : vars.find? first = some (.expr (.var next)) →
      vars.Refers next k name → vars.Refers first (k + 1) name

namespace Table.Refers

variable {vars : Table HostValue} {first name last : String} {i j k : Nat}

/-- What stands on the way to the end of a chain has the rest of the chain before it. -/
theorem rest (h : vars.Refers first i name) (hlast : vars.Refers first k last)
    (hend : ∀ next, vars.find? last ≠ some (.expr (.var next))) :
    ∃ m, k + 1 = i + m ∧ vars.Refers name m last := by
  induction h generalizing k with
  | here first => exact ⟨k, Nat.add_comm k 1, hlast⟩
  | @onward first next name i hfind _ ih =>
      cases hlast with
      | here => exact absurd hfind (hend next)
      | @onward _ next' _ k hfind' hrest =>
          rw [hfind] at hfind'
          cases hfind'
          obtain ⟨m, hm, hname⟩ := ih hrest
          exact ⟨m, by omega, hname⟩

theorem end_unique (hi : vars.Refers first i name) (hj : vars.Refers first j last)
    (hname : ∀ next, vars.find? name ≠ some (.expr (.var next)))
    (hlast : ∀ next, vars.find? last ≠ some (.expr (.var next))) : name = last ∧ i = j := by
  obtain ⟨m, hm, hrest⟩ := hi.rest hj hlast
  cases hrest with
  | here => exact ⟨rfl, by omega⟩
  | onward hfind _ => exact absurd hfind (hname _)

/-- A chain that comes to a name twice has no end. -/
theorem bound_of_cycle (hi : vars.Refers first i name) (hj : vars.Refers first j name)
    (hij : i < j) (h : vars.Refers first k last) :
    ∃ next, vars.find? last = some (.expr (.var next)) := by
  by_contra hnone
  have hend : ∀ next, vars.find? last ≠ some (.expr (.var next)) :=
    fun next hnext => hnone ⟨next, hnext⟩
  obtain ⟨m, hm, hlast⟩ := hi.rest h hend
  obtain ⟨n, hn, hlast'⟩ := hj.rest h hend
  have hmn := (hlast.end_unique hlast' hend hend).2
  omega

end Table.Refers

namespace HostValue

/-- What a variable is bound to stands for something else, or is called, or is a value. -/
theorem reference_or_call_or_value (v : HostValue) :
    (∃ name, v = .expr (.var name)) ∨ (∃ name args, v = .expr (.call name args)) ∨
      v.IsValue fun _ => True := by
  cases v with
  | expr e =>
      cases e with
      | var name => exact .inl ⟨name, rfl⟩
      | call name args => exact .inr (.inl ⟨name, args, rfl⟩)
      | _ => exact .inr (.inr (.inl ⟨_, rfl, rfl⟩))
  | _ => exact .inr (.inr (.inr ⟨rfl, trivial⟩))

variable {plain : HostValue → Prop} {v : HostValue}

theorem IsValue.ne_var (h : v.IsValue plain) (name : String) : v ≠ .expr (.var name) := by
  rintro rfl
  obtain ⟨_, hliteral, ⟨⟩⟩ | ⟨hplain, -⟩ := h
  · cases hliteral
  · cases hplain

theorem IsValue.ne_call (h : v.IsValue plain) (name : String) (args : List Expr) :
    v ≠ .expr (.call name args) := by
  rintro rfl
  obtain ⟨_, hliteral, ⟨⟩⟩ | ⟨hplain, -⟩ := h
  · cases hliteral
  · cases hplain

end HostValue

namespace Session

variable {s : Session} {vars : Table HostValue} {first name : String} {k : Nat} {v : HostValue}
  {e : Except Fault HostValue}

theorem evaluate_var_yields (hfind : s.vars.find? name = some v) (hroom : s.depth < s.maxDepth)
    (h : (evaluateValue v).Yields { s with depth := s.depth + 1 } e) :
    (evaluate (.var name)).Yields s e := by
  have hstep : evaluateStep (evaluateWith { s with depth := s.depth + 1 : Session }.levels)
      (.var name) { s with depth := s.depth + 1 } =
        evaluateValue v { s with depth := s.depth + 1 } := by
    refine (evaluateStep_var (s := { s with depth := s.depth + 1 }) hfind _).trans ?_
    cases v <;> rfl
  have hvar : evaluate (.var name) s =
      (evaluateValue v).ensuring leave { s with depth := s.depth + 1 } :=
    (evaluate_of_room hroom).trans (Action.ensuring_congr hstep)
  obtain ⟨hresult, hfinal⟩ := h
  constructor
  · rw [result, hvar]
    exact (result_ensuring_ok result_leave).trans hresult
  · rw [final, hvar]
    refine final_ensuring.trans ?_
    rw [hfinal, final_leave, Int.add_sub_cancel]

theorem evaluate_unbound_yields (hfind : s.vars.find? name = none) (hroom : s.depth < s.maxDepth) :
    (evaluate (.var name)).Yields s (.error (.eval (.unknownVariable name))) := by
  have hstep := evaluateStep_unknownVariable (s := { s with depth := s.depth + 1 }) hfind
    (evaluateWith { s with depth := s.depth + 1 : Session }.levels)
  rw [yields_error_iff, evaluate_of_room hroom, ensuring_leave_error]
  exact ⟨_, hstep, by rw [Int.add_sub_cancel]⟩

/-- Where there is room for the variables of a chain, the first one has the end of any other. -/
theorem evaluate_refers (h : vars.Refers first k name) (hvars : s.vars = vars)
    (hroom : s.depth + k ≤ s.maxDepth)
    (hname : (evaluate (.var name)).Yields { s with depth := s.depth + k - 1 } e) :
    (evaluate (.var first)).Yields s e := by
  induction h generalizing s with
  | here name =>
      rw [Int.natCast_one, Int.add_sub_cancel] at hname
      exact hname
  | @onward first next name k hfind _ ih =>
      have hdepth : s.depth + ((k + 1 : Nat) : Int) - 1 = s.depth + 1 + k - 1 := by omega
      rw [hdepth] at hname
      have hnext := @ih { s with depth := s.depth + 1 } hvars (by dsimp only; omega) hname
      exact evaluate_var_yields (v := .expr (.var next)) (hvars ▸ hfind) (by omega) hnext

theorem evaluateValue_of_no_room (v : HostValue) (h : s.maxDepth ≤ s.depth) :
    evaluateValue v s = .error (.eval (.recursionLimit s.maxDepth)) s := by
  cases v with
  | expr e => exact evaluate_of_no_room h
  | _ => exact bind_of_error (enter_of_no_room h)

/-- A chain that comes to no call, and for whose end there is no room, if it has one. -/
structure Overruns (s : Session) (first : String) : Prop where
  calls : ∀ k name f args, s.vars.Refers first k name →
    s.vars.find? name ≠ some (.expr (.call f args))
  values : ∀ k name v, s.vars.Refers first k name → s.vars.find? name = some v →
    v.IsValue (fun _ => True) → s.maxDepth < s.depth + k + 1
  unbound : ∀ k name, s.vars.Refers first k name → s.vars.find? name = none →
    s.maxDepth < s.depth + k

namespace Overruns

theorem onward {next : String} (h : s.Overruns first)
    (hfind : s.vars.find? first = some (.expr (.var next))) :
    Overruns { s with depth := s.depth + 1 } next where
  calls k name f args hrefers := h.calls (k + 1) name f args (.onward hfind hrefers)
  values k name v hrefers hname hv := by
    have hlong := h.values (k + 1) name v (.onward hfind hrefers) hname hv
    dsimp only
    omega
  unbound k name hrefers hname := by
    have hlong := h.unbound (k + 1) name (.onward hfind hrefers) hname
    dsimp only
    omega

theorem of_value (hname : s.vars.Refers first k name) (hfind : s.vars.find? name = some v)
    (hv : v.IsValue fun _ => True) (hlong : s.maxDepth < s.depth + k + 1) :
    s.Overruns first := by
  have hend : ∀ next, s.vars.find? name ≠ some (.expr (.var next)) :=
    fun next hnext => hv.ne_var next (Option.some.inj (hfind.symm.trans hnext))
  constructor
  · intro j other f args hother hcall
    obtain ⟨rfl, -⟩ := hother.end_unique hname (by simp [hcall]) hend
    exact hv.ne_call f args (Option.some.inj (hfind.symm.trans hcall))
  · intro j other w hother hbound hw
    obtain ⟨-, rfl⟩ := hother.end_unique hname
      (fun next hnext => hw.ne_var next (Option.some.inj (hbound.symm.trans hnext))) hend
    exact hlong
  · intro j other hother hunbound
    obtain ⟨rfl, -⟩ := hother.end_unique hname (by simp [hunbound]) hend
    rw [hunbound] at hfind
    cases hfind

theorem of_cycle {i j : Nat} (hi : s.vars.Refers first i name) (hj : s.vars.Refers first j name)
    (hij : i < j) : s.Overruns first where
  calls k last f args hrefers hlast := by
    obtain ⟨next, hnext⟩ := hi.bound_of_cycle hj hij hrefers
    rw [hnext] at hlast
    cases hlast
  values k last v hrefers hlast hv := by
    obtain ⟨next, hnext⟩ := hi.bound_of_cycle hj hij hrefers
    exact absurd (Option.some.inj (hlast.symm.trans hnext)) (hv.ne_var next)
  unbound k last hrefers hlast := by
    obtain ⟨next, hnext⟩ := hi.bound_of_cycle hj hij hrefers
    rw [hnext] at hlast
    cases hlast

/-- The evaluation of such a chain goes as deep as the limit allows. -/
theorem evaluate_yields (h : s.Overruns first) :
    (evaluate (.var first)).Yields s (.error (.eval (.recursionLimit s.maxDepth))) := by
  obtain ⟨room, hroom⟩ : ∃ room : Nat, s.maxDepth ≤ s.depth + room :=
    ⟨(s.maxDepth - s.depth).toNat, by omega⟩
  induction room generalizing s first with
  | zero => exact yields_error_iff.mpr (evaluate_of_no_room (by omega))
  | succ room ih =>
      by_cases hfull : s.maxDepth ≤ s.depth
      · exact yields_error_iff.mpr (evaluate_of_no_room hfull)
      · have hdepth := Int.not_le.mp hfull
        cases hfind : s.vars.find? first with
        | none =>
            have hlong := h.unbound 1 first (.here first) hfind
            omega
        | some v =>
            refine evaluate_var_yields hfind hdepth ?_
            obtain ⟨next, rfl⟩ | ⟨f, args, rfl⟩ | hv := v.reference_or_call_or_value
            · exact ih (h.onward hfind) (by dsimp only; omega)
            · exact absurd hfind (h.calls 1 first f args (.here first))
            · have hlong := h.values 1 first v (.here first) hfind hv
              exact yields_error_iff.mpr (evaluateValue_of_no_room v (by dsimp only; omega))

end Overruns

/-- A variable has the value at the end of its chain, if there is room for one evaluation more than
the chain has variables. If the chain ends in a name that is not bound, and there is room for its
variables, the error is that of the name. A chain that comes to no call and for whose end there is
no room gives the error of the limit, and so does every chain that comes to a name twice. In all of
these cases the session is left as it was. -/
theorem evaluate_chain (s : Session) (first : String) :
    (∀ k name v, s.vars.Refers first k name → s.vars.find? name = some v →
      v.IsValue (fun _ => True) → s.depth + k + 1 ≤ s.maxDepth →
      evaluate (.var first) s = .ok v s) ∧
    (∀ k name, s.vars.Refers first k name → s.vars.find? name = none →
      s.depth + k ≤ s.maxDepth →
      evaluate (.var first) s = .error (.eval (.unknownVariable name)) s) ∧
    (s.Overruns first →
      evaluate (.var first) s = .error (.eval (.recursionLimit s.maxDepth)) s) ∧
    ∀ i j name, i < j → s.vars.Refers first i name → s.vars.Refers first j name →
      evaluate (.var first) s = .error (.eval (.recursionLimit s.maxDepth)) s := by
  refine ⟨fun k name v hrefers hfind hv hroom => ?_, fun k name hrefers hfind hroom => ?_,
    fun h => yields_error_iff.mp h.evaluate_yields,
    fun i j name hij hi hj => yields_error_iff.mp (Overruns.of_cycle hi hj hij).evaluate_yields⟩
  · refine yields_ok_iff.mp (evaluate_refers hrefers rfl (by omega) ?_)
    refine evaluate_var_yields (s := { s with depth := s.depth + k - 1 }) hfind
      (by dsimp only; omega) ?_
    exact yields_ok_iff.mpr (evaluateValue_isValue hv (by dsimp only; omega))
  · refine yields_error_iff.mp (evaluate_refers hrefers rfl hroom ?_)
    exact evaluate_unbound_yields (s := { s with depth := s.depth + k - 1 }) hfind
      (by dsimp only; omega)

/-- A session with room for three evaluations, and chains of four kinds. -/
def chained : Session :=
  let names := [("a", "b"), ("long", "a"), ("x", "y"), ("y", "gone"), ("p", "q"), ("q", "p")]
  { fresh ⟨3, 200, none, none⟩ with
    vars := names.foldl (fun vars pair => vars.insert pair.1 (.expr (.var pair.2)))
      (Table.empty.insert "b" (.expr (.string "end"))) }

/-- There is just enough room for two variables and a value, and for three variables, but not for
three variables and a value. -/
theorem evaluate_chain_justEnough :
    evaluate (.var "a") chained = .ok (.expr (.string "end")) chained ∧
      evaluate (.var "x") chained = .error (.eval (.unknownVariable "gone")) chained ∧
      evaluate (.var "long") chained = .error (.eval (.recursionLimit 3)) chained ∧
      evaluate (.var "p") chained = .error (.eval (.recursionLimit 3)) chained := by
  have hvalue : chained.vars.find? "b" = some (.expr (.string "end")) := rfl
  have ha : chained.vars.Refers "a" 2 "b" := .onward rfl (.here "b")
  refine ⟨(evaluate_chain chained "a").1 2 "b" _ ha hvalue (.inl ⟨_, rfl, rfl⟩) (by decide),
    (evaluate_chain chained "x").2.1 3 "gone" (.onward rfl (.onward rfl (.here "gone"))) rfl
      (by decide),
    (evaluate_chain chained "long").2.2.1 ?_,
    (evaluate_chain chained "p").2.2.2 1 3 "p" (by decide) (.here "p")
      (.onward rfl (.onward rfl (.here "p")))⟩
  exact .of_value (.onward rfl ha) hvalue (.inl ⟨_, rfl, rfl⟩) (by decide)

end Session

end MacroScript
