import MacroScript.Expr.Written

/-!
# Nesting and subtrees

How deeply the calls of a tree are nested, properties that hold of all trees
inside a tree, and the tree that a written form stands for, in which the unit is
the call it is written as.
-/
namespace MacroScript.Expr

mutual

/-- How deeply calls are nested in arguments; an atom and a call without arguments have none. -/
def nesting : Expr → Nat
  | void | int _ | string _ | var _ => 0
  | call _ args => if args.isEmpty then 0 else 1 + deepest args

def deepest : List Expr → Nat
  | [] => 0
  | e :: es => max e.nesting (deepest es)

end

theorem deepest_lt_iff {es : List Expr} {n : Nat} (hn : 0 < n) :
    deepest es < n ↔ ∀ e ∈ es, e.nesting < n := by
  induction es with
  | nil => simpa [deepest] using hn
  | cons e es ih => simp only [deepest, Nat.max_lt, ih, List.forall_mem_cons]

theorem nesting_call_le_iff {name : String} {args : List Expr} {n : Nat} :
    (call name args).nesting ≤ n ↔ ∀ arg ∈ args, arg.nesting < n := by
  cases args with
  | nil => simp [nesting]
  | cons e es =>
      rw [nesting, if_neg (by simp), Nat.add_comm, Nat.succ_le_iff]
      rcases Nat.eq_zero_or_pos n with rfl | hn
      · exact ⟨fun h => absurd h (Nat.not_lt_zero _),
          fun h => absurd (h e (by simp)) (Nat.not_lt_zero _)⟩
      · exact deepest_lt_iff hn

mutual

/-- A property of a tree and of all trees inside it. -/
def Every (p : Expr → Prop) : Expr → Prop
  | void => p void
  | int value => p (int value)
  | string text => p (string text)
  | var name => p (var name)
  | call name args => p (call name args) ∧ EveryIn p args

def EveryIn (p : Expr → Prop) : List Expr → Prop
  | [] => True
  | e :: es => e.Every p ∧ EveryIn p es

end

mutual

theorem Every.imp {p q : Expr → Prop} (h : ∀ e, p e → q e) : {e : Expr} → e.Every p → e.Every q
  | void, he | int _, he | string _, he | var _, he => h _ he
  | call _ _, he => ⟨h _ he.1, EveryIn.imp h he.2⟩

theorem EveryIn.imp {p q : Expr → Prop} (h : ∀ e, p e → q e) :
    {es : List Expr} → EveryIn p es → EveryIn q es
  | [], _ => trivial
  | _ :: _, hes => ⟨Every.imp h hes.1, EveryIn.imp h hes.2⟩

end

mutual

/-- What holds of all trees inside a tree holds of all trees inside each of them. -/
theorem Every.within {p : Expr → Prop} : {e : Expr} → e.Every p → e.Every fun sub => sub.Every p
  | void, h | int _, h | string _, h | var _, h => h
  | call _ _, h => ⟨h, EveryIn.within h.2⟩

theorem EveryIn.within {p : Expr → Prop} :
    {es : List Expr} → EveryIn p es → EveryIn (fun sub => sub.Every p) es
  | [], _ => trivial
  | _ :: _, h => ⟨Every.within h.1, EveryIn.within h.2⟩

end

mutual

/-- The tree that the written form stands for. -/
def asWritten : Expr → Expr
  | void => call "do" []
  | int value => int value
  | string text => string text
  | var name => var name
  | call name args => call name (asWrittenIn args)

def asWrittenIn : List Expr → List Expr
  | [] => []
  | e :: es => e.asWritten :: asWrittenIn es

end

theorem asWrittenIn_eq_map {es : List Expr} : asWrittenIn es = es.map asWritten := by
  induction es with
  | nil => rfl
  | cons e es ih => rw [asWrittenIn, List.map_cons, ih]

mutual

theorem nesting_asWritten : (e : Expr) → e.asWritten.nesting = e.nesting
  | void | int _ | string _ | var _ => rfl
  | call _ [] => rfl
  | call _ (e :: es) => by
      rw [asWritten, asWrittenIn, nesting, nesting, if_neg (by simp), if_neg (by simp), deepest,
        deepest, nesting_asWritten e, deepest_asWrittenIn es]

theorem deepest_asWrittenIn : (es : List Expr) → deepest (asWrittenIn es) = deepest es
  | [] => rfl
  | e :: es => by rw [asWrittenIn, deepest, deepest, nesting_asWritten e, deepest_asWrittenIn es]

end

mutual

theorem asWritten_asWritten : (e : Expr) → e.asWritten.asWritten = e.asWritten
  | void | int _ | string _ | var _ => rfl
  | call _ args => by rw [asWritten, asWritten, asWrittenIn_asWrittenIn args]

theorem asWrittenIn_asWrittenIn : (es : List Expr) →
    asWrittenIn (asWrittenIn es) = asWrittenIn es
  | [] => rfl
  | e :: es => by rw [asWrittenIn, asWrittenIn, asWritten_asWritten e, asWrittenIn_asWrittenIn es]

end

theorem asWritten_eq_var_iff {e : Expr} {name : String} : e.asWritten = var name ↔ e = var name := by
  cases e <;> simp [asWritten]

theorem map_asWritten_eq_vars_iff {es : List Expr} {names : List String} :
    es.map asWritten = names.map var ↔ es = names.map var := by
  induction es generalizing names with
  | nil => simp
  | cons e es ih => cases names <;> simp [ih, asWritten_eq_var_iff]

/-- Only the unit and the call it is written as are not told apart. -/
theorem asWritten_eq_call_iff {e : Expr} {name : String} {args : List Expr} :
    e.asWritten = call name args ↔ (e = void ∧ name = "do" ∧ args = []) ∨
      ∃ args', e = call name args' ∧ args'.map asWritten = args := by
  cases e with
  | call name' args' =>
      rw [asWritten, asWrittenIn_eq_map, call.injEq]
      constructor
      · rintro ⟨rfl, hargs⟩
        exact .inr ⟨args', rfl, hargs⟩
      · rintro (⟨hvoid, -⟩ | ⟨args', hcall, hargs⟩)
        · cases hvoid
        · cases hcall
          exact ⟨rfl, hargs⟩
  | _ => simp [asWritten, eq_comm]

mutual

theorem asWritten_eq_self : {e : Expr} → e.Every (· ≠ void) → e.asWritten = e
  | void, h => absurd rfl h
  | int _, _ | string _, _ | var _, _ => rfl
  | call _ args, h => by rw [asWritten, asWrittenIn_eq_self h.2]

theorem asWrittenIn_eq_self : {es : List Expr} → EveryIn (· ≠ void) es → asWrittenIn es = es
  | [], _ => rfl
  | e :: es, h => by rw [asWrittenIn, asWritten_eq_self h.1, asWrittenIn_eq_self h.2]

end

end MacroScript.Expr
