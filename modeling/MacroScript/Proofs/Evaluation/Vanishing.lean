import MacroScript.Proofs.Evaluation.Bindings
import MacroScript.Proofs.Evaluation.HostRules
import Mathlib.Data.List.TakeWhile

/-!
# Parameters that vanish

The body of a defined function may have a host function remove a parameter of
the call. The call takes its parameters back one by one, and stops at the first
that is missing: its fault replaces the end of the body, and the parameters
behind it stay as the body left them. So a call leaves no parameter behind
exactly if the body left none bound behind the first that it made vanish.
-/
namespace MacroScript

namespace DefinedFn

open MacroScript.Action Session

variable {fn : DefinedFn} {args : List Expr} {s t : Session}

/-- The variables with each parameter bound to its unevaluated argument. -/
def bindAll (vars : Table HostValue) : List (String × Expr) → Table HostValue
  | [] => vars
  | (formal, actual) :: pairs => bindAll (vars.insert formal (.expr actual)) pairs

theorem bindFormals_eq {pairs : List (String × Expr)} (h : s.vars.Free (pairs.map Prod.fst)) :
    bindFormals pairs s =
      .ok (pairs.map Prod.fst, none) { s with vars := bindAll s.vars pairs } := by
  induction pairs generalizing s with
  | nil => rfl
  | cons pair pairs ih =>
      obtain ⟨formal, actual⟩ := pair
      have hfree : ¬ s.vars.contains formal = true := h.2 formal List.mem_cons_self
      exact bindFormals_free hfree (ih (h.insert _))

theorem call_eq (h : fn.Accepts args s.vars) (ev : Evaluator) :
    fn.call ev args s = (ev fn.body).ensuring (unbindFormals fn.formals)
      { s with vars := bindAll s.vars (fn.formals.zip args) } := by
  have hnames := map_fst_zip_formals h.1
  have hbind := bindFormals_eq (s := s) (hnames.symm ▸ h.2)
  rw [hnames] at hbind
  exact call_bind h.1 hbind ev

theorem unbindFormals_append (names rest : List String) :
    unbindFormals (names ++ rest) = unbindFormals names >>= fun _ => unbindFormals rest := by
  induction names with
  | nil => rfl
  | cons name names ih =>
      rw [List.cons_append, unbindFormals, unbindFormals, ih, bind_assoc]

theorem unbindFormals_missing {gone : String} {rest : List String}
    (h : ¬ t.vars.contains gone = true) :
    unbindFormals (gone :: rest) t = .error (.foreign (.bindingVanished gone)) t := by
  have hfirst := @unbindVar_eq t gone
  rw [if_neg h] at hfirst
  obtain ⟨hresult, hfinal⟩ := eq_error_iff.mp hfirst
  unfold unbindFormals
  rw [bind_error hresult, hfinal]

/-- Parameters are removed in order, up to the first that is missing. -/
theorem unbindFormals_takeWhile {names : List String} (hnodup : names.Nodup) (t : Session) :
    (unbindFormals names).final t =
      { t with vars := t.vars.eraseAll (names.takeWhile t.vars.contains) } ∧
    (unbindFormals names).result t =
      match names.dropWhile t.vars.contains with
      | [] => .ok ()
      | gone :: _ => .error (.foreign (.bindingVanished gone)) := by
  have hfront := unbindFormals_eq (t := t)
    (hnodup.sublist (List.takeWhile_sublist t.vars.contains))
    fun name hname => List.mem_takeWhile_imp hname
  obtain ⟨hresult, hfinal⟩ := eq_ok_iff.mp hfront
  have hsplit := unbindFormals_append (names.takeWhile t.vars.contains)
    (names.dropWhile t.vars.contains)
  rw [List.takeWhile_append_dropWhile] at hsplit
  rw [hsplit, final_bind_ok hresult, result_bind_ok hresult, hfinal]
  cases hrest : names.dropWhile t.vars.contains with
  | nil => exact ⟨rfl, rfl⟩
  | cons gone rest =>
      have hgone : ¬ t.vars.contains gone = true := by
        have hhead := List.head?_dropWhile_not t.vars.contains names
        rw [hrest] at hhead
        exact Bool.eq_false_iff.mp hhead
      have hstill : ¬ (t.vars.eraseAll (names.takeWhile t.vars.contains)).contains gone = true :=
        fun h => hgone ((Table.contains_eraseAll ..).mp h).2
      exact (eq_error_iff.mp (unbindFormals_missing hstill)).symm

/-- A call is refused and changes nothing, or it takes its parameters back up to the first that the
body left missing. That one gives the fault of the call, and what the body left bound behind it is
all that stays bound of the parameters. -/
theorem call_takesBack (ev : Evaluator) (fn : DefinedFn) (args : List Expr) (s : Session) :
    (¬ fn.Accepts args s.vars →
      ∃ fault, fn.Refuses args fault ∧ fn.call ev args s = .error fault s) ∧
    (fn.Accepts args s.vars →
      let inside : Session := { s with vars := bindAll s.vars (fn.formals.zip args) }
      let t := (ev fn.body).final inside
      (fn.call ev args).final s =
        { t with vars := t.vars.eraseAll (fn.formals.takeWhile t.vars.contains) } ∧
      (fn.call ev args).result s =
        (match fn.formals.dropWhile t.vars.contains with
        | [] => (ev fn.body).result inside
        | gone :: _ => .error (.foreign (.bindingVanished gone))) ∧
      ((∀ formal ∈ fn.formals, ¬ ((fn.call ev args).final s).vars.contains formal = true) ↔
        ∀ formal ∈ fn.formals.dropWhile t.vars.contains, ¬ t.vars.contains formal = true)) := by
  refine ⟨fun h => ?_, fun h => ?_⟩
  · obtain ⟨fault, hrefuses, hcall⟩ := call_refused h
    exact ⟨fault, hrefuses, hcall ev s rfl⟩
  · intro inside t
    have hnodup : fn.formals.Nodup := h.2.1
    have hcall : fn.call ev args s = _ := call_eq h ev
    obtain ⟨hfinal, hresult⟩ := unbindFormals_takeWhile hnodup t
    have hleft : (fn.call ev args).final s =
        { t with vars := t.vars.eraseAll (fn.formals.takeWhile t.vars.contains) } := by
      rw [final, hcall]
      exact final_ensuring.trans hfinal
    refine ⟨hleft, ?_, ?_⟩
    · rw [result, hcall]
      cases hrest : fn.formals.dropWhile t.vars.contains with
      | nil =>
          rw [hrest] at hresult
          exact result_ensuring_ok hresult
      | cons gone rest =>
          rw [hrest] at hresult
          exact result_ensuring_error hresult
    · have hsplit := List.takeWhile_append_dropWhile (p := t.vars.contains) (l := fn.formals)
      rw [hleft]
      simp only [Table.contains_eraseAll]
      constructor
      · intro hall formal hformal hbound
        have hmem : formal ∈ fn.formals := (List.dropWhile_sublist _).subset hformal
        refine hall formal hmem ⟨fun hfront => ?_, hbound⟩
        rw [← hsplit, List.nodup_append] at hnodup
        exact hnodup.2.2 formal hfront formal hformal rfl
      · intro hrest formal hformal hbound
        rw [← hsplit, List.mem_append] at hformal
        exact hrest formal (hformal.resolve_left hbound.1) hbound.2

/-- A host function removes the first of two parameters, and the second stays behind. -/
theorem call_takesBack_first :
    let host : HostFunction := fun _ _ => .unbindVar "a" fun _ => .done .absent
    let s := Session.withHost ⟨150, 200, none, none⟩ "drop" host
    let fn : DefinedFn := ⟨"f", ["a", "b"], .call "drop" []⟩
    (fn.call (evaluateWith 5) [.int 1, .int 2]).result s =
      .error (.foreign (.bindingVanished "a")) ∧
    ¬ ∀ formal ∈ fn.formals,
      ¬ ((fn.call (evaluateWith 5) [.int 1, .int 2]).final s).vars.contains formal = true := by
  intro host s fn
  have haccepts : fn.Accepts [.int 1, .int 2] s.vars :=
    ⟨rfl, by decide, by decide⟩
  obtain ⟨-, hresult, hleft⟩ := (call_takesBack (evaluateWith 5) fn [.int 1, .int 2] s).2 haccepts
  refine ⟨hresult, fun hall => ?_⟩
  exact hleft.mp hall "b" (by decide) (by decide)

end DefinedFn
end MacroScript
