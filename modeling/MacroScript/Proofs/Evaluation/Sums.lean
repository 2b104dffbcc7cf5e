import Mathlib
import MacroScript.Proofs.Evaluation.Definitions
import MacroScript.Proofs.Evaluation.DepthBudget

/-!
# Sums

`add` keeps a running total that wraps around at every step, while its arguments
are evaluated one after another and may do anything else besides. What comes out
is the exact sum of the integers they come to, reduced once. An argument that
fails or comes to something else ends the call, and those behind it are never
looked at.

Where the arguments are literals, nothing else happens, and the sum may be
formed in any order and in parts. A part is a call of its own, whose arguments
are evaluated one level deeper.
-/
namespace MacroScript

open MacroScript.Action Session

theorem HostValue.eq_of_expectInt {v : HostValue} {value : UInt64}
    (h : v.expectInt = .ok value) : v = .expr (.int value) := by
  cases v with
  | expr e =>
      cases e with
      | int n =>
          cases h
          rfl
      | _ => cases h
  | _ => cases h

/-- What arguments come to one after another, as integers: their values, or the fault of the first
that fails or is none, and the session. No argument is evaluated behind a fault. -/
inductive ComeToInts : List Expr → Session → Except Fault (List UInt64) → Session → Prop
  | done (t : Session) : ComeToInts [] t (.ok []) t
  | failed {arg : Expr} {args : List Expr} {t u : Session} {fault : Fault} :
      evaluate arg t = .error fault u → ComeToInts (arg :: args) t (.error fault) u
  | other {arg : Expr} {args : List Expr} {t u : Session} {v : HostValue} {fault : Fault} :
      evaluate arg t = .ok v u → v.expectInt = .error fault →
      ComeToInts (arg :: args) t (.error fault) u
  | next {arg : Expr} {args : List Expr} {t u w : Session} {value : UInt64}
      {values : Except Fault (List UInt64)} : evaluate arg t = .ok (.expr (.int value)) u →
      ComeToInts args u values w → ComeToInts (arg :: args) t (values.map (value :: ·)) w

/-- The sum of integers, reduced to one that fits. -/
def reducedSum (values : List UInt64) : UInt64 := .ofNat (values.map UInt64.toNat).sum

section ReducedSum

variable {value : UInt64} {values : List UInt64}

theorem reducedSum_cons : reducedSum (value :: values) = value + reducedSum values := by
  rw [reducedSum, List.map_cons, List.sum_cons, UInt64.ofNat_add, UInt64.ofNat_toNat, reducedSum]

theorem reducedSum_singleton : reducedSum [value] = value := by
  rw [reducedSum_cons]
  exact UInt64.add_zero value

theorem ofInt?_reducedSum (values : List UInt64) :
    Expr.ofInt? (((values.map UInt64.toNat).sum % 2 ^ 64 : Nat) : Int) =
      some (.int (reducedSum values)) := by
  have hlt : (values.map UInt64.toNat).sum % 2 ^ 64 < 2 ^ 64 := Nat.mod_lt _ (by decide)
  unfold Expr.ofInt?
  rw [if_pos ⟨Int.natCast_nonneg _, Int.ofNat_lt.mpr hlt⟩, Int.toNat_natCast]
  congr 2
  apply UInt64.toNat.inj
  simp [reducedSum]

end ReducedSum

theorem mapError_map {ε ε' α β : Type} (e : Except ε α) (f : α → β) (g : ε → ε') :
    (e.map f).mapError g = (e.mapError g).map f := by
  cases e <;> rfl

/-- What the literals of a list add up to, or the fault of the first that is no integer. -/
def literalSum : List Expr → Except Fault UInt64
  | [] => .ok 0
  | e :: es => e.expectInt.bind fun value => (literalSum es).map (value + ·)

section LiteralSum

variable {xs ys : List Expr}

theorem literalSum_append :
    literalSum (xs ++ ys) =
      (literalSum xs).bind fun first => (literalSum ys).map (first + ·) := by
  induction xs with
  | nil =>
      change literalSum ys = (literalSum ys).map (0 + ·)
      cases literalSum ys with
      | error fault => rfl
      | ok total => rw [Except.map, UInt64.zero_add]
  | cons e xs ih =>
      rw [List.cons_append, literalSum, literalSum, ih]
      cases e.expectInt with
      | error fault => rfl
      | ok value =>
          cases literalSum xs with
          | error fault => rfl
          | ok first =>
              cases literalSum ys with
              | error fault => rfl
              | ok total =>
                  change Except.ok (value + (first + total)) = .ok (value + first + total)
                  rw [UInt64.add_assoc]

theorem Expr.name_of_expectInt {e : Expr} {fault : Fault} (h : e.expectInt = .error fault) :
    fault.name = ErrorClass.name (.eval .invalidCast) := by
  cases e with
  | int _ => cases h
  | _ =>
      cases h
      rfl

theorem literalSum_perm (h : xs.Perm ys) :
    (literalSum xs).mapError Fault.name = (literalSum ys).mapError Fault.name := by
  induction h with
  | nil => rfl
  | @cons e xs ys _ ih =>
      rw [literalSum, literalSum]
      cases e.expectInt with
      | error fault => rfl
      | ok value =>
          change ((literalSum xs).map (value + ·)).mapError Fault.name =
            ((literalSum ys).map (value + ·)).mapError Fault.name
          rw [mapError_map, mapError_map, ih]
  | swap e e' xs =>
      rw [literalSum, literalSum, literalSum, literalSum]
      cases he : e.expectInt with
      | error fault =>
          cases he' : e'.expectInt with
          | error fault' =>
              change Except.error fault'.name = .error fault.name
              rw [Expr.name_of_expectInt he, Expr.name_of_expectInt he']
          | ok value' => rfl
      | ok value =>
          cases e'.expectInt with
          | error fault' => rfl
          | ok value' =>
              cases literalSum xs with
              | error fault => rfl
              | ok total =>
                  change Except.ok (value' + (value + total)) = .ok (value + (value' + total))
                  rw [← UInt64.add_assoc, UInt64.add_comm value', UInt64.add_assoc]
  | trans _ _ ih ih' => exact ih.trans ih'

end LiteralSum

theorem Session.evaluate_givesBack {s t : Session} {arg : Expr} (hf : s.Follows (.free False))
    (ht : (evaluate arg).final s = t) :
    t.Follows (.free False) ∧ t.maxDepth = s.maxDepth ∧ t.depth = s.depth := by
  have L := Discipline.keepingDepth_lawful (HostRules.free_lenient False)
  obtain ⟨⟨hf', -⟩, ⟨hmaxDepth, hdepth⟩, -⟩ := L.evaluate arg s ⟨hf, fun _ _ _ _ => trivial⟩
  rw [ht] at hf' hmaxDepth hdepth
  exact ⟨hf', hmaxDepth, hdepth.resolve_right fun hclosed => hclosed.1⟩

namespace ComeToInts

variable {arg : Expr} {args : List Expr} {s t u : Session} {values : Except Fault (List UInt64)}

theorem exists_values (args : List Expr) (t : Session) :
    ∃ values u, ComeToInts args t values u := by
  induction args generalizing t with
  | nil => exact ⟨_, _, .done t⟩
  | cons arg args ih =>
      cases hev : evaluate arg t with
      | error fault u => exact ⟨_, _, .failed hev⟩
      | ok v u =>
          cases hint : v.expectInt with
          | error fault => exact ⟨_, _, .other hev hint⟩
          | ok value =>
              obtain rfl := HostValue.eq_of_expectInt hint
              obtain ⟨values, w, hrest⟩ := ih u
              exact ⟨_, _, .next hev hrest⟩

/-- The running total wraps around at every step, and comes to what the sum is reduced to. -/
theorem sumAll (h : ComeToInts args t values u) (hf : t.Follows (.free False)) {levels : Nat}
    (hlevels : (t.maxDepth - t.depth).toNat ≤ levels) (total : UInt64) :
    (Builtin.sumAll (evaluateWith levels) total args).result t =
        values.map (fun values => total + reducedSum values) ∧
      (Builtin.sumAll (evaluateWith levels) total args).final t = u ∧ u.depth = t.depth := by
  induction h generalizing total with
  | done t =>
      refine ⟨?_, rfl, rfl⟩
      change Except.ok total = .ok (total + 0)
      rw [UInt64.add_zero]
  | @failed arg args t u fault hev =>
      have hev' := (evaluateWith_of_enough hf hlevels arg).trans hev
      have hsum : Builtin.sumAll (evaluateWith levels) total (arg :: args) t = .error fault u :=
        bind_of_error (bind_of_error hev')
      obtain ⟨-, -, hdepth⟩ := evaluate_givesBack hf (eq_error_iff.mp hev).2
      exact ⟨(eq_error_iff.mp hsum).1, (eq_error_iff.mp hsum).2, hdepth⟩
  | @other arg args t u v fault hev hint =>
      have hev' := (evaluateWith_of_enough hf hlevels arg).trans hev
      have hsum : Builtin.sumAll (evaluateWith levels) total (arg :: args) t = .error fault u := by
        refine bind_of_error ((bind_of_ok hev').trans ?_)
        rw [hint]
        rfl
      obtain ⟨-, -, hdepth⟩ := evaluate_givesBack hf (eq_ok_iff.mp hev).2
      exact ⟨(eq_error_iff.mp hsum).1, (eq_error_iff.mp hsum).2, hdepth⟩
  | @next arg args t u w value values hev _ ih =>
      have hev' := (evaluateWith_of_enough hf hlevels arg).trans hev
      have hsum : Builtin.sumAll (evaluateWith levels) total (arg :: args) t =
          Builtin.sumAll (evaluateWith levels) (total + value) args u :=
        bind_of_ok (bind_of_ok hev')
      obtain ⟨hf', hmaxDepth, hdepth⟩ := evaluate_givesBack hf (eq_ok_iff.mp hev).2
      rw [← hmaxDepth, ← hdepth] at hlevels
      obtain ⟨hresult, hfinal, hdepth'⟩ := ih hf' hlevels (total + value)
      rw [result, final, hsum]
      refine ⟨hresult.trans ?_, hfinal, hdepth'.trans hdepth⟩
      cases values with
      | error fault => rfl
      | ok values =>
          change Except.ok (total + value + reducedSum values) =
            .ok (total + reducedSum (value :: values))
          rw [reducedSum_cons, UInt64.add_assoc]

theorem literals (h : ∀ e ∈ args, e.isLiteral = true) (hroom : t.depth < t.maxDepth) :
    ∃ values, ComeToInts args t values t ∧ values.map reducedSum = literalSum args := by
  induction args with
  | nil => exact ⟨.ok [], .done t, rfl⟩
  | cons arg args ih =>
      have hev := evaluate_literal (h arg List.mem_cons_self) hroom
      obtain ⟨values, hrest, hsum⟩ := ih fun e he => h e (List.mem_cons_of_mem arg he)
      rw [literalSum, ← hsum]
      cases hint : arg.expectInt with
      | error fault => exact ⟨.error fault, .other hev hint, rfl⟩
      | ok value =>
          obtain rfl := HostValue.expr.inj (HostValue.eq_of_expectInt (v := .expr arg) hint)
          refine ⟨_, .next hev hrest, ?_⟩
          cases values with
          | error fault => rfl
          | ok values =>
              change Except.ok (reducedSum (value :: values)) = .ok (value + reducedSum values)
              rw [reducedSum_cons]

theorem of_no_room (h : ComeToInts (arg :: args) t values u) (hfull : t.maxDepth ≤ t.depth) :
    values = .error (.eval (.recursionLimit t.maxDepth)) ∧ u = t := by
  have hev : evaluate arg t = _ := evaluate_of_no_room hfull
  cases h with
  | failed hfailed =>
      cases hev.symm.trans hfailed
      exact ⟨rfl, rfl⟩
  | other hvalue _ => cases hev.symm.trans hvalue
  | next hvalue _ => cases hev.symm.trans hvalue

end ComeToInts

namespace Session

variable {s t : Session} {name : String} {args xs ys : List Expr}
  {values : Except Fault (List UInt64)}

section Add

variable (hf : s.Follows (.free False)) (hfind : s.functions.find? name = some (.ofBuiltin .add))
include hf hfind

/-- A call of `add` ends as its arguments do, which are evaluated one level deeper. -/
theorem evaluate_add_ends (hargs : args ≠ [])
    (h : ComeToInts args { s with depth := s.depth + 1 } values t) :
    (evaluate (.call name args)).result s =
        values.map (fun values => .expr (.int (reducedSum values))) ∧
      (evaluate (.call name args)).final s = { t with depth := s.depth } := by
  obtain ⟨arg, rest, rfl⟩ := List.exists_cons_of_ne_nil hargs
  by_cases hroom : s.depth < s.maxDepth
  · have hcall : evaluate (.call name (arg :: rest)) s = _ := evaluate_builtin_of_room hfind hroom
    generalize hlevels : ({ s with depth := s.depth + 1 } : Session).levels = levels at hcall
    have henough : (s.maxDepth - (s.depth + 1)).toNat ≤ levels := hlevels ▸ Nat.le_add_right ..
    obtain ⟨hresult, hfinal, hdepth⟩ := h.sumAll hf henough 0
    have hback : t.depth - 1 = s.depth := by
      change t.depth = s.depth + 1 at hdepth
      omega
    have hadd : Builtin.call (evaluateWith levels) .add (arg :: rest) = (do
        let total ← Builtin.sumAll (evaluateWith levels) 0 (arg :: rest)
        return .expr (.int total) : Action Session HostValue) := rfl
    rw [hadd] at hcall
    constructor
    · rw [result, hcall]
      refine (result_ensuring_ok result_leave).trans ?_
      cases values with
      | error fault => exact result_bind_error hresult
      | ok values =>
          refine (result_bind_ok hresult).trans ?_
          change Except.ok (HostValue.expr (.int (0 + reducedSum values))) = .ok _
          rw [UInt64.zero_add]
    · rw [final, hcall]
      refine final_ensuring.trans ?_
      rw [final_bind_of_final fun _ _ => rfl, hfinal, final_leave, hback]
  · -- The arguments have no room either.
    have hfull : s.maxDepth ≤ s.depth := Int.not_lt.mp hroom
    obtain ⟨rfl, rfl⟩ := h.of_no_room (by dsimp only; omega)
    exact eq_error_iff.mp (evaluate_of_no_room hfull)

/-- A call of `add` on literals does nothing but add them, as long as there is room for them. -/
theorem evaluate_add_literals (hargs : args ≠ []) (hliterals : ∀ e ∈ args, e.isLiteral = true)
    (hroom : s.depth + 2 ≤ s.maxDepth) :
    (evaluate (.call name args)).Yields s
      ((literalSum args).map fun total => .expr (.int total)) := by
  obtain ⟨values, h, hsum⟩ := ComeToInts.literals (t := { s with depth := s.depth + 1 }) hliterals
    (by dsimp only; omega)
  obtain ⟨hresult, hfinal⟩ := evaluate_add_ends hf hfind hargs h
  refine ⟨hresult.trans ?_, hfinal⟩
  rw [← hsum]
  cases values <;> rfl

theorem evaluate_add_of_no_room (hargs : args ≠ []) (hfull : s.maxDepth ≤ s.depth + 1) :
    (evaluate (.call name args)).Yields s (.error (.eval (.recursionLimit s.maxDepth))) := by
  obtain ⟨arg, rest, rfl⟩ := List.exists_cons_of_ne_nil hargs
  obtain ⟨values, t, h⟩ :=
    ComeToInts.exists_values (arg :: rest) { s with depth := s.depth + 1 }
  obtain ⟨rfl, rfl⟩ := h.of_no_room hfull
  obtain ⟨hresult, hfinal⟩ := evaluate_add_ends hf hfind hargs h
  exact ⟨hresult, hfinal⟩

/-- Where there is room for the literals of both parts, these come to what the whole comes to. -/
theorem evaluate_add_parts (hxs : xs ≠ []) (hys : ys ≠ [])
    (hliterals : ∀ e ∈ xs ++ ys, e.isLiteral = true) (hroom : s.depth + 3 ≤ s.maxDepth) :
    (evaluate (.call name [.call name xs, .call name ys])).Yields s
      ((literalSum (xs ++ ys)).map fun total => .expr (.int total)) := by
  have hroom' : s.depth + 1 + 2 ≤ s.maxDepth := by omega
  have hfirst := evaluate_add_literals (s := { s with depth := s.depth + 1 }) hf hfind hxs
    (fun e he => hliterals e (List.mem_append_left ys he)) hroom'
  have hsecond := evaluate_add_literals (s := { s with depth := s.depth + 1 }) hf hfind hys
    (fun e he => hliterals e (List.mem_append_right xs he)) hroom'
  rw [literalSum_append]
  cases hx : literalSum xs with
  | error fault =>
      rw [hx] at hfirst
      obtain ⟨hresult, hfinal⟩ := evaluate_add_ends hf hfind (List.cons_ne_nil _ _)
        (.failed (yields_error_iff.mp hfirst))
      exact ⟨hresult, hfinal⟩
  | ok first =>
      rw [hx] at hfirst
      cases hy : literalSum ys with
      | error fault =>
          rw [hy] at hsecond
          obtain ⟨hresult, hfinal⟩ := evaluate_add_ends hf hfind (List.cons_ne_nil _ _)
            (.next (yields_ok_iff.mp hfirst) (.failed (yields_error_iff.mp hsecond)))
          exact ⟨hresult, hfinal⟩
      | ok second =>
          rw [hy] at hsecond
          obtain ⟨hresult, hfinal⟩ := evaluate_add_ends hf hfind (List.cons_ne_nil _ _)
            (.next (yields_ok_iff.mp hfirst) (.next (yields_ok_iff.mp hsecond) (.done _)))
          refine ⟨hresult.trans ?_, hfinal⟩
          change Except.ok (HostValue.expr (.int (reducedSum [first, second]))) =
            .ok (.expr (.int (first + second)))
          rw [reducedSum_cons, reducedSum_singleton]

theorem evaluate_add_perm (hliterals : ∀ e ∈ xs, e.isLiteral = true) (hperm : xs.Perm ys) :
    ((evaluate (.call name xs)).result s).mapError Fault.name =
        ((evaluate (.call name ys)).result s).mapError Fault.name ∧
      (evaluate (.call name xs)).final s = (evaluate (.call name ys)).final s := by
  by_cases hxs : xs = []
  · obtain rfl : ys = [] := (hxs ▸ hperm).symm.eq_nil
    rw [hxs]
    exact ⟨rfl, rfl⟩
  · have hys : ys ≠ [] := fun hys => hxs (hys ▸ hperm).eq_nil
    by_cases hfull : s.maxDepth ≤ s.depth + 1
    · obtain ⟨hresult, hfinal⟩ := evaluate_add_of_no_room hf hfind hxs hfull
      obtain ⟨hresult', hfinal'⟩ := evaluate_add_of_no_room hf hfind hys hfull
      rw [hresult, hfinal, hresult', hfinal']
      exact ⟨rfl, rfl⟩
    · have hroom : s.depth + 2 ≤ s.maxDepth := by omega
      obtain ⟨hresult, hfinal⟩ := evaluate_add_literals hf hfind hxs hliterals hroom
      obtain ⟨hresult', hfinal'⟩ := evaluate_add_literals hf hfind hys
        (fun e he => hliterals e (hperm.mem_iff.mpr he)) hroom
      rw [hresult, hfinal, hresult', hfinal', mapError_map, mapError_map,
        literalSum_perm hperm]
      exact ⟨rfl, rfl⟩

/-- A whole and its two parts differ only where there is room for the literals of the whole and none
for those of the parts. -/
theorem evaluate_add_append (hxs : xs ≠ []) (hys : ys ≠ [])
    (hliterals : ∀ e ∈ xs ++ ys, e.isLiteral = true) (hroom : s.depth + 2 ≠ s.maxDepth) :
    evaluate (.call name [.call name xs, .call name ys]) s =
      evaluate (.call name (xs ++ ys)) s := by
  have hwhole : xs ++ ys ≠ [] := List.append_ne_nil_of_left_ne_nil hxs ys
  by_cases hfull : s.maxDepth ≤ s.depth + 1
  · obtain ⟨hresult, hfinal⟩ := evaluate_add_of_no_room hf hfind hwhole hfull
    obtain ⟨hresult', hfinal'⟩ := evaluate_add_of_no_room hf hfind
      (List.cons_ne_nil (.call name xs) [.call name ys]) hfull
    exact apply_eq (hresult'.trans hresult.symm) (hfinal'.trans hfinal.symm)
  · obtain ⟨hresult, hfinal⟩ := evaluate_add_literals hf hfind hwhole hliterals (by omega)
    obtain ⟨hresult', hfinal'⟩ := evaluate_add_parts hf hfind hxs hys hliterals (by omega)
    exact apply_eq (hresult'.trans hresult.symm) (hfinal'.trans hfinal.symm)

end Add

/-- A call of `add` gives the exact sum of what its arguments come to, reduced modulo the number of
integers, and that is always an integer which an expression can hold; or it gives the fault of the
first argument that fails or is no integer, in the session which that argument left. On literals the
order makes no difference, but to which of them a fault names. A whole and its two parts give the
same, unless there is room for the literals of the whole and none for those of the parts, which are
evaluated one level deeper. -/
theorem evaluate_add (hf : s.Follows (.free False))
    (hfind : s.functions.find? name = some (.ofBuiltin .add)) :
    (∀ args, args ≠ [] →
      let begun : Session := { s with depth := s.depth + 1 }
      (∃ values t, ComeToInts args begun values t) ∧
      ∀ values t, ComeToInts args begun values t →
        match values with
        | .ok values => ∃ e,
            Expr.ofInt? (((values.map UInt64.toNat).sum % 2 ^ 64 : Nat) : Int) = some e ∧
            evaluate (.call name args) s = .ok (.expr e) { t with depth := s.depth }
        | .error fault =>
            evaluate (.call name args) s = .error fault { t with depth := s.depth }) ∧
    (∀ xs ys, (∀ e ∈ xs, e.isLiteral = true) → xs.Perm ys →
      ((evaluate (.call name xs)).result s).mapError Fault.name =
          ((evaluate (.call name ys)).result s).mapError Fault.name ∧
        (evaluate (.call name xs)).final s = (evaluate (.call name ys)).final s) ∧
    ∀ xs ys, xs ≠ [] → ys ≠ [] → (∀ e ∈ xs ++ ys, e.isLiteral = true) →
      s.depth + 2 ≠ s.maxDepth →
      evaluate (.call name [.call name xs, .call name ys]) s =
        evaluate (.call name (xs ++ ys)) s := by
  refine ⟨fun args hargs => ⟨ComeToInts.exists_values args _, fun values t h => ?_⟩,
    fun xs ys => evaluate_add_perm hf hfind, fun xs ys => evaluate_add_append hf hfind⟩
  have hends := evaluate_add_ends hf hfind hargs h
  cases values with
  | error fault => exact eq_error_iff.mpr hends
  | ok values => exact ⟨_, ofInt?_reducedSum values, eq_ok_iff.mpr hends⟩

/-- A session with room for so many evaluations inside each other. -/
def withRoom (room : Int) : Session := (fresh ⟨room, 200, none, none⟩).installBuiltins

/-- The sum wraps around behind what its second argument prints. Where the second argument is a
text, the third one prints nothing. Literals may be added in another order, and in parts. -/
theorem evaluate_add_wrapping :
    let seven : Expr := .call "if" [.call "eql" [.call "log" [.string "c"], .int 1], .int 1, .int 7]
    let largest : Expr := .int 18446744073709551615
    evaluate (.call "add" [largest, seven]) (withRoom 5) =
        .ok (.expr (.int 6)) { withRoom 5 with emitted := ["c"] } ∧
      evaluate (.call "add" [.int 1, .string "a", .call "log" [.string "d"]]) (withRoom 5) =
        .error (.eval (.notAnInt (.string "a"))) (withRoom 5) ∧
      ((evaluate (.call "add" [largest, .int 7])).result (withRoom 5)).mapError Fault.name =
        ((evaluate (.call "add" [.int 7, largest])).result (withRoom 5)).mapError Fault.name ∧
      evaluate (.call "add" [.call "add" [largest], .call "add" [.int 7]]) (withRoom 5) =
        evaluate (.call "add" [largest, .int 7]) (withRoom 5) := by
  intro seven largest
  have hf : (withRoom 5).Follows (.free False) := Follows.installBuiltins (.fresh _)
  have hfind : (withRoom 5).functions.find? "add" = some (.ofBuiltin .add) := by cbv
  obtain ⟨hadd, hperm, hparts⟩ := evaluate_add hf hfind
  let begun (emitted : List String) : Session :=
    { withRoom 5 with depth := 1, emitted := emitted }
  have hlargest : evaluate largest (begun []) = .ok (.expr largest) (begun []) := by cbv
  have hseven : evaluate seven (begun []) = .ok (.expr (.int 7)) (begun ["c"]) := by cbv
  have hone : evaluate (.int 1) (begun []) = .ok (.expr (.int 1)) (begun []) := by cbv
  have htext : evaluate (.string "a") (begun []) = .ok (.expr (.string "a")) (begun []) := by cbv
  refine ⟨?_, ?_, ?_, ?_⟩
  · obtain ⟨e, he, hsum⟩ := (hadd _ (List.cons_ne_nil _ _)).2 _ _
      (.next hlargest (.next hseven (.done _)))
    have hsix : reducedSum [18446744073709551615, 7] = 6 := by decide
    rw [← hsix, ← Option.some.inj (he.symm.trans (ofInt?_reducedSum _))]
    exact hsum
  · exact (hadd _ (List.cons_ne_nil _ _)).2 _ _ (.next hone (.other htext rfl))
  · exact (hperm [largest, .int 7] [.int 7, largest] (by simp [largest, Expr.isLiteral])
      (.swap _ _ _)).1
  · exact hparts [largest] [.int 7] (List.cons_ne_nil _ _) (List.cons_ne_nil _ _)
      (by simp [largest, Expr.isLiteral]) (by decide)

/-- There is room for two literals, but not for two calls with one literal each. -/
theorem evaluate_add_noRoomForParts :
    evaluate (.call "add" [.int 1, .int 2]) (withRoom 2) = .ok (.expr (.int 3)) (withRoom 2) ∧
      evaluate (.call "add" [.call "add" [.int 1], .call "add" [.int 2]]) (withRoom 2) =
        .error (.eval (.recursionLimit 2)) (withRoom 2) :=
  ⟨by cbv, by cbv⟩

end Session

end MacroScript
