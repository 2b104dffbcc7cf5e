import MacroScript.Proofs.Evaluation.Lawful

/-!
# Bindings of defined functions

A call of a defined function is refused, and then leaves the session as it was,
or its parameters are bound to the arguments while the body is evaluated. As
nothing that is evaluated removes a variable, the parameters are all there when
they are removed again, and what was bound before the call is still bound.
-/
namespace MacroScript

namespace DefinedFn

open MacroScript.Action Session

variable {fn : DefinedFn} {args : List Expr} {s : Session} {vars : Table HostValue}

/-- What binding parameters does: those that come before the first that is taken are bound, and
removing them again would restore the table. -/
structure Bound (vars : Table HostValue) (pairs : List (String × Expr)) (bound : List String)
    (refusal : Option Fault) (after : Table HostValue) : Prop where
  nodup : bound.Nodup
  fresh : ∀ name ∈ bound, ¬ vars.contains name = true
  contains : ∀ name, after.contains name = true ↔ name ∈ bound ∨ vars.contains name = true
  restores : after.eraseAll bound = vars
  found : ∀ name, after.find? name =
    if name ∈ bound then (pairs.lookup name).map HostValue.expr else vars.find? name
  all : refusal = none → bound = pairs.map Prod.fst
  refused : ∀ fault, refusal = some fault → ¬ vars.Free (pairs.map Prod.fst) ∧
    ∃ name ∈ pairs.map Prod.fst, fault = .eval (.shadowing name)

theorem Bound.taken {formal : String} {actual : Expr}
    {pairs : List (String × Expr)} (h : vars.contains formal = true) :
    Bound vars ((formal, actual) :: pairs) [] (some (.eval (.shadowing formal))) vars where
  nodup := .nil
  fresh := nofun
  contains := by simp
  restores := rfl
  found _ := (if_neg List.not_mem_nil).symm
  all := nofun
  refused := by
    rintro _ ⟨⟩
    exact ⟨fun hfree => hfree.2 formal (by simp) h, formal, by simp, rfl⟩

theorem Bound.values {pairs : List (String × Expr)} {bound : List String} {refusal : Option Fault}
    {after : Table HostValue} (h : Bound vars pairs bound refusal after) {name : String}
    {value : HostValue} (hfind : after.find? name = some value) :
    vars.find? name = some value ∨ ∃ e, value = .expr e := by
  rw [h.found] at hfind
  split at hfind
  · obtain ⟨e, -, rfl⟩ := Option.map_eq_some_iff.mp hfind
    exact .inr ⟨e, rfl⟩
  · exact .inl hfind

theorem Bound.kept {pairs : List (String × Expr)} {bound : List String} {refusal : Option Fault}
    {after later : Table HostValue} (h : Bound vars pairs bound refusal after)
    (hkept : ∀ name, after.contains name = true → later.contains name = true) (name : String)
    (hname : vars.contains name = true) : (later.eraseAll bound).contains name = true := by
  rw [Table.contains_eraseAll]
  refine ⟨fun hmem => h.fresh name hmem hname, hkept name ?_⟩
  exact (h.contains name).mpr (.inr hname)

theorem Bound.bindsPlain {plain : HostValue → Prop} {pairs : List (String × Expr)}
    {bound : List String} {refusal : Option Fault} {after : Table HostValue}
    (h : Bound s.vars pairs bound refusal after) (hs : s.BindsPlain plain) :
    Session.BindsPlain plain { s with vars := after } := by
  intro name v hfind hv
  obtain hfind | ⟨e, rfl⟩ := h.values hfind
  · exact hs name v hfind hv
  · cases hv

theorem Bound.cons {after : Table HostValue} {formal : String} {actual : Expr}
    {pairs : List (String × Expr)} {bound : List String} {refusal : Option Fault}
    (hfresh : ¬ vars.contains formal = true)
    (h : Bound (vars.insert formal (.expr actual)) pairs bound refusal after) :
    Bound vars ((formal, actual) :: pairs) (formal :: bound) refusal after where
  nodup := by
    refine List.nodup_cons.mpr ⟨fun hmem => h.fresh formal hmem ?_, h.nodup⟩
    exact (Table.contains_insert ..).mpr (.inl rfl)
  fresh := by
    intro name hname hc
    rcases List.mem_cons.mp hname with rfl | hname
    · exact hfresh hc
    · exact h.fresh name hname ((Table.contains_insert ..).mpr (.inr hc))
  contains name := by
    rw [h.contains, Table.contains_insert, List.mem_cons]
    exact ⟨fun | .inl h => .inl (.inr h) | .inr (.inl h) => .inl (.inl h) | .inr (.inr h) => .inr h,
      fun | .inl (.inl h) => .inr (.inl h) | .inl (.inr h) => .inl h | .inr h => .inr (.inr h)⟩
  restores := by
    rw [Table.eraseAll, Table.eraseAll_erase, h.restores, Table.erase_insert_of_free _ hfresh]
  found name := by
    have hformal : formal ∉ bound := fun hmem =>
      h.fresh formal hmem ((Table.contains_insert ..).mpr (.inl rfl))
    rw [h.found, Table.find?_insert, List.lookup_cons]
    by_cases hname : name = formal
    · subst hname
      simp [hformal]
    · simp [hname, beq_false_of_ne hname]
  all hnone := by rw [h.all hnone, List.map_cons]
  refused fault hfault := by
    obtain ⟨hfree, name, hname, rfl⟩ := h.refused fault hfault
    exact ⟨fun hfree' => hfree (hfree'.insert _), name, List.mem_cons_of_mem _ hname, rfl⟩

theorem bindFormals_taken {formal : String} {actual : Expr} {pairs : List (String × Expr)}
    (h : s.vars.contains formal = true) :
    bindFormals ((formal, actual) :: pairs) s = .ok ([], some (.eval (.shadowing formal))) s := by
  have hbind := @bindVar_eq s formal (.expr actual)
  rw [if_pos h] at hbind
  unfold bindFormals
  rw [bind_ok result_attempt, final_attempt, (eq_error_iff.mp hbind).1, (eq_error_iff.mp hbind).2]
  rfl

theorem bindFormals_free {formal : String} {actual : Expr} {pairs : List (String × Expr)}
    {bound : List String} {refusal : Option Fault} {t : Session}
    (h : ¬ s.vars.contains formal = true)
    (hrest : bindFormals pairs { s with vars := s.vars.insert formal (.expr actual) } =
      .ok (bound, refusal) t) :
    bindFormals ((formal, actual) :: pairs) s = .ok (formal :: bound, refusal) t := by
  have hbind := @bindVar_eq s formal (.expr actual)
  rw [if_neg h] at hbind
  unfold bindFormals
  rw [bind_ok result_attempt, final_attempt, (eq_ok_iff.mp hbind).1, (eq_ok_iff.mp hbind).2]
  change (bindFormals pairs >>= fun x => pure (formal :: x.1, x.2)) _ = _
  rw [bind_ok (eq_ok_iff.mp hrest).1, (eq_ok_iff.mp hrest).2]
  rfl

theorem bindFormals_bound (pairs : List (String × Expr)) (vars : Table HostValue) :
    ∃ bound refusal after, Bound vars pairs bound refusal after ∧ ∀ s : Session, s.vars = vars →
      bindFormals pairs s = .ok (bound, refusal) { s with vars := after } := by
  induction pairs generalizing vars with
  | nil =>
      refine ⟨[], none, vars,
        ⟨.nil, nofun, by simp, rfl, fun _ => (if_neg List.not_mem_nil).symm, fun _ => rfl, nofun⟩, ?_⟩
      rintro s rfl
      rfl
  | cons pair pairs ih =>
      obtain ⟨formal, actual⟩ := pair
      by_cases hc : vars.contains formal = true
      · refine ⟨[], _, vars, .taken hc, ?_⟩
        rintro s rfl
        exact bindFormals_taken hc
      · obtain ⟨bound, refusal, after, hbound, hrest⟩ := ih (vars.insert formal (.expr actual))
        refine ⟨formal :: bound, refusal, after, hbound.cons hc, ?_⟩
        rintro s rfl
        exact bindFormals_free hc (hrest _ rfl)

theorem unbindFormals_eq {names : List String} {t : Session} (hnodup : names.Nodup)
    (h : ∀ name ∈ names, t.vars.contains name = true) :
    unbindFormals names t = .ok () { t with vars := t.vars.eraseAll names } := by
  induction names generalizing t with
  | nil => rfl
  | cons name names ih =>
      rw [List.nodup_cons] at hnodup
      have hfirst := @unbindVar_eq t name
      rw [if_pos (h name (by simp))] at hfirst
      unfold unbindFormals
      rw [bind_ok (eq_ok_iff.mp hfirst).1, (eq_ok_iff.mp hfirst).2, ih hnodup.2]
      · rfl
      · intro other hother
        refine (Table.contains_erase ..).mpr ⟨?_, h other (List.mem_cons_of_mem _ hother)⟩
        rintro rfl
        exact hnodup.1 hother

/-- There is an argument for each parameter, and the parameters can all be bound. -/
def Accepts (fn : DefinedFn) (args : List Expr) (vars : Table HostValue) : Prop :=
  args.length = fn.formals.length ∧ vars.Free fn.formals

/-- The faults of a call that is refused. -/
def Refuses (fn : DefinedFn) (args : List Expr) (fault : Fault) : Prop :=
  fault = .eval (.definedArity fn.name fn.formals.length args.length) ∨
    ∃ name ∈ fn.formals, fault = .eval (.shadowing name)

theorem map_fst_zip_formals (h : args.length = fn.formals.length) :
    (fn.formals.zip args).map Prod.fst = fn.formals :=
  List.map_fst_zip (Nat.le_of_eq h.symm)

theorem call_arity (h : args.length ≠ fn.formals.length) (ev : Evaluator) :
    fn.call ev args s = .error (.eval (.definedArity fn.name fn.formals.length args.length)) s := by
  unfold call
  rw [if_pos h]
  rfl

theorem call_bind {bound : List String} {refusal : Option Fault} {t : Session}
    (h : args.length = fn.formals.length)
    (hbind : bindFormals (fn.formals.zip args) s = .ok (bound, refusal) t) (ev : Evaluator) :
    fn.call ev args s =
      (refusal.elim (ev fn.body) throw).ensuring (unbindFormals bound) t := by
  unfold call
  rw [if_neg fun hne => hne h]
  change (bindFormals (fn.formals.zip args) >>= _) s = _
  rw [bind_ok (eq_ok_iff.mp hbind).1, (eq_ok_iff.mp hbind).2]
  cases refusal <;> rfl

/-- A call that is refused leaves the session as it was. Only the variables decide the refusal. -/
theorem call_refused (h : ¬ fn.Accepts args vars) :
    ∃ fault, fn.Refuses args fault ∧ ∀ (ev : Evaluator) (s : Session), s.vars = vars →
      fn.call ev args s = .error fault s := by
  by_cases hlen : args.length = fn.formals.length
  · obtain ⟨bound, refusal, after, hbound, hbind⟩ := bindFormals_bound (fn.formals.zip args) vars
    have hnames := map_fst_zip_formals hlen
    cases refusal with
    | none =>
        have hall : bound = fn.formals := (hbound.all rfl).trans hnames
        subst hall
        exact absurd ⟨hlen, hbound.nodup, hbound.fresh⟩ h
    | some fault =>
        obtain ⟨-, name, hname, rfl⟩ := hbound.refused fault rfl
        refine ⟨_, .inr ⟨name, hnames ▸ hname, rfl⟩, ?_⟩
        rintro ev s rfl
        have hclean := unbindFormals_eq (t := { s with vars := after }) hbound.nodup fun name hname =>
          (hbound.contains name).mpr (.inl hname)
        have hthrow : (throw (.eval (.shadowing name)) : Action Session HostValue)
            { s with vars := after } = .error (.eval (.shadowing name)) { s with vars := after } := rfl
        rw [call_bind hlen (hbind s rfl), Option.elim_some, ensuring_error hthrow hclean,
          hbound.restores]
  · exact ⟨_, .inl rfl, fun ev s _ => call_arity hlen ev⟩

/-- A call that is not refused evaluates the body with all parameters bound. -/
theorem call_accepted (h : fn.Accepts args vars) :
    ∃ after, Bound vars (fn.formals.zip args) fn.formals none after ∧
      ∀ (ev : Evaluator) (s : Session), s.vars = vars →
        fn.call ev args s =
          (ev fn.body).ensuring (unbindFormals fn.formals) { s with vars := after } := by
  obtain ⟨hlen, hfree⟩ := h
  obtain ⟨bound, refusal, after, hbound, hbind⟩ := bindFormals_bound (fn.formals.zip args) vars
  have hnames := map_fst_zip_formals hlen
  cases refusal with
  | some fault => exact absurd (hnames.symm ▸ hfree) (hbound.refused fault rfl).1
  | none =>
      obtain rfl : bound = fn.formals := (hbound.all rfl).trans hnames
      exact ⟨after, hbound, fun ev s hs => call_bind hlen (hbind s hs) ev⟩

/-- Where the body removes no variable, a call that is not refused ends as the body does, and all
its parameters are taken back. -/
theorem call_of_keeps (h : fn.Accepts args vars) :
    ∃ after, Bound vars (fn.formals.zip args) fn.formals none after ∧
      ∀ (ev : Evaluator) (s t : Session), s.vars = vars →
        (ev fn.body).final { s with vars := after } = t →
        (∀ name, after.contains name = true → t.vars.contains name = true) →
        (fn.call ev args).result s = (ev fn.body).result { s with vars := after } ∧
        (fn.call ev args).final s = { t with vars := t.vars.eraseAll fn.formals } := by
  obtain ⟨after, hbound, hcall⟩ := call_accepted h
  refine ⟨after, hbound, ?_⟩
  rintro ev s t hs rfl hkeeps
  have hclean := unbindFormals_eq (t := (ev fn.body).final { s with vars := after }) hbound.nodup
    fun name hname => hkeeps name ((hbound.contains name).mpr (.inl hname))
  obtain ⟨hresult, hfinal⟩ := eq_ok_iff.mp hclean
  rw [result, final, hcall ev s hs]
  exact ⟨result_ensuring_ok hresult, final_ensuring.trans hfinal⟩

end DefinedFn

namespace Discipline

open Session

/-- Where no evaluation removes a variable, calls of defined functions keep a discipline that admits
the parameters, and what it allows of the body is allowed of the call. -/
theorem callDefined_of_kept {D : Discipline} {rules : HostRules}
    (hown : ∀ error, (Fault.eval error).reason? = none → rules.fault (.eval error))
    (hkept : ∀ s t, D.allows s t → ∀ name, s.vars.contains name = true → t.vars.contains name = true)
    (hbound : ∀ s pairs names after, D.holds s → DefinedFn.Bound s.vars pairs names none after →
      D.holds { s with vars := after })
    (htaken : ∀ s pairs names after t, DefinedFn.Bound s.vars pairs names none after →
      D.holds t → D.allows { s with vars := after } t →
      D.holds { t with vars := t.vars.eraseAll names } ∧
        D.allows s { t with vars := t.vars.eraseAll names })
    {ev : Evaluator} (hev : D.Evaluates rules ev) (fn : DefinedFn) (args : List Expr) :
    D.Keeps rules rules.value (fn.call ev args) := by
  intro s hs
  by_cases h : fn.Accepts args s.vars
  · obtain ⟨after, hparams, hcall⟩ := DefinedFn.call_of_keeps h
    obtain ⟨hholds, hallows, hends⟩ := hev fn.body _ (hbound s _ _ after hs hparams)
    obtain ⟨hresult, hfinal⟩ := hcall ev s _ rfl rfl (hkept _ _ hallows)
    obtain ⟨hholds', hallows'⟩ := htaken s _ _ after _ hparams hholds hallows
    rw [hresult, hfinal]
    exact ⟨hholds', hallows', hends⟩
  · obtain ⟨fault, hrefuses, hcall⟩ := DefinedFn.call_refused h
    obtain ⟨hresult, hfinal⟩ := Action.eq_error_iff.mp (hcall ev s rfl)
    rw [hresult, hfinal]
    refine ⟨hs, D.refl s, ?_⟩
    obtain rfl | ⟨name, -, rfl⟩ := hrefuses
    · exact hown _ rfl
    · exact hown _ rfl

end Discipline

end MacroScript
