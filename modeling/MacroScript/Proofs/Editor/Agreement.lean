import MacroScript.Editor.Index
import MacroScript.Proofs.Evaluation.FixedFunctions
import MacroScript.Proofs.Reading.Recognition

/-!
# The index and the run of a text

The index of a text is made without evaluating it. Where definitions are made at
the top only, and keep their hands off the two forms that the index knows, what
the index says of a name is so in the session that a run of the text leaves: a
later form for the same name takes the place of an earlier one in both, what is
bound stays bound, and a form that the index takes for less than it is does not
get through the run.
-/
namespace MacroScript

namespace Expr

/-- No call of the name stands in the tree. -/
def NeverCalls (name : String) (e : Expr) : Prop :=
  e.Every fun sub => ∀ args, sub ≠ call name args

variable {name other : String} {args : List Expr}

theorem neverCalls_call_iff : (call other args).NeverCalls name ↔
    other ≠ name ∧ ∀ e ∈ args, e.NeverCalls name := by
  simp [NeverCalls, every_call_iff]

/-- The form makes a function only as a whole, and not one in place of the forms that the index
knows. -/
structure DefinesAtTop (e : Expr) : Prop where
  nested : ∀ name args, e = call name args → ∀ arg ∈ args, arg.NeverCalls "define"
  named : ∀ name rest, e = call "define" (var name :: rest) → name ≠ "let" ∧ name ≠ "define"

end Expr

section Places

variable {nesting : Nesting} {cursor : Cursor} {stream : TokenStream}

theorem Derivation.argumentToken {d : Derivation} {after : Cursor} {more : TokenStream}
    (h : d.Spans stream after more) {head name : String} {rest : List Expr}
    (he : d.expr = .call head (.var name :: rest)) :
    ∃ token, stream.get? 2 = some token ∧ token.kind = .symbol ∧ token.text = name := by
  cases d with
  | call head opening first others =>
      cases first with
      | name token =>
          obtain ⟨_, _, inside, _, _, rfl, -, -, ⟨rfl, hkind, -⟩, -⟩ := h
          have hargs := (Expr.call.inj he).2
          rw [List.cons.injEq] at hargs
          exact ⟨token, rfl, hkind, Expr.var.inj hargs.1⟩
      | _ => simp [Derivation.expr] at he
  | _ => simp [Derivation.expr] at he

theorem Derivation.argumentLocation {d : Derivation} {after : Cursor} {more : TokenStream}
    (h : d.Spans stream after more) {head name : String} {rest : List Expr}
    (he : d.expr = .call head (.var name :: rest)) :
    ∃ place, (TopLevel.mk d.expr stream).argumentLocation? = some place := by
  obtain ⟨token, hget, hkind, -⟩ := d.argumentToken h he
  refine ⟨token.location, ?_⟩
  unfold TopLevel.argumentLocation?
  rw [hget]
  exact if_pos hkind

theorem Definition.shape_of_ofExpr? {e : Expr} {definition : Definition}
    (h : ofExpr? e = some definition) :
    (∃ name rest, e = .call "let" (.var name :: rest) ∧ definition = ⟨name, .var, []⟩) ∨
      ∃ name rest, e = .call "define" (.var name :: rest) ∧
        definition = ⟨name, .function, paramsOf rest⟩ := by
  unfold ofExpr? at h
  split at h
  · exact .inl ⟨_, _, rfl, (Option.some.inj h).symm⟩
  · exact .inr ⟨_, _, rfl, (Option.some.inj h).symm⟩
  · cases h

/-- Every form that defines a name has a place for it, so it is in the index. -/
theorem Program.symbol_ofStream (nesting : Nesting) (cursor : Cursor) (stream : TokenStream) :
    ∀ item ∈ (ofStream nesting cursor stream).items, ∀ definition,
      Definition.ofExpr? item.expr = some definition →
      ∃ symbol, item.symbol? = some symbol ∧ symbol.definition = definition := by
  fun_induction ofStream nesting cursor stream with
  | case1 cursor stream e after more hread program ih =>
      obtain ⟨d, rfl, hspans, -⟩ := Reader.read_start_eq_value_iff.mp hread
      intro item hitem definition hdefinition
      rcases List.mem_cons.mp hitem with rfl | hitem
      · obtain ⟨place, hplace⟩ : ∃ place,
            (TopLevel.mk d.expr stream).argumentLocation? = some place := by
          obtain ⟨name, rest, he, -⟩ | ⟨name, rest, he, -⟩ :=
            Definition.shape_of_ofExpr? hdefinition
          · exact d.argumentLocation hspans he
          · exact d.argumentLocation hspans he
        refine ⟨⟨definition, place.row, place.column⟩, ?_, rfl⟩
        unfold TopLevel.symbol?
        rw [hdefinition, hplace]
        rfl
      · exact ih item hitem definition hdefinition
  | case2 => nofun
  | case3 => nofun

end Places

open Session

theorem evaluate_let_contains {s t : Session} {f name : String} {rest : List Expr} {v : HostValue}
    (hfind : s.functions.find? f = some (.ofBuiltin .letVar))
    (h : evaluate (.call f (.var name :: rest)) s = .ok v t) : t.vars.contains name = true := by
  rcases rest with _ | ⟨e, _ | ⟨arg, rest⟩⟩
  · obtain ⟨ev, u, hcall, -⟩ := evaluate_builtin_ok hfind h
    cases hcall
  · obtain ⟨value, u, -, rfl⟩ := evaluate_let_ok hfind h
    exact (Table.contains_insert ..).mpr (.inl rfl)
  · obtain ⟨ev, u, hcall, -⟩ := evaluate_builtin_ok hfind h
    cases hcall

namespace Session

/-- Of functions, `define` makes them and nothing else does, `let` is what it is, and no definition is
hidden in what is bound. -/
structure Orderly (s : Session) : Prop where
  follows : s.Follows .selfContained
  trees : s.Trees (Expr.NeverCalls "define")
  makes : s.functions.find? "define" = some (.ofBuiltin .define)
  alone : ∀ name, s.NamesBuiltin .define name → name = "define"
  lets : s.functions.find? "let" = some (.ofBuiltin .letVar)

namespace Orderly

variable {s t : Session} {e : Expr} {d : DefinedFn} (h : s.Orderly)
include h

theorem undefining_iff : s.Undefining e ↔ e.NeverCalls "define" := by
  constructor
  · refine Expr.Every.imp ?_
    rintro _ hsub args rfl
    exact hsub "define" args rfl ⟨_, h.makes, rfl⟩
  · refine Expr.Every.imp ?_
    rintro _ hsub name args rfl hname
    exact hsub args (h.alone name hname ▸ rfl)

theorem withScratch (scratch : Scope) : Orderly { s with scratch := scratch } :=
  ⟨h.follows, ⟨h.trees.bound, h.trees.bodies⟩, h.makes, h.alone, h.lets⟩

theorem final_evaluate (he : e.NeverCalls "define") :
    ((evaluate e).final s).Orderly ∧ ((evaluate e).final s).functions = s.functions ∧
      ∀ name, s.vars.contains name = true → ((evaluate e).final s).vars.contains name = true := by
  have htrees : s.Trees s.Undefining :=
    ⟨fun name e hfind => h.undefining_iff.mpr (h.trees.bound name e hfind),
      fun name fn d hfind hd => h.undefining_iff.mpr (h.trees.bodies name fn d hfind hd)⟩
  obtain ⟨hsame, htrees'⟩ := functions_kept h.follows htrees (h.undefining_iff.mpr he)
  obtain ⟨hfollows, hbinds, -⟩ := Discipline.bindingValues_lawful.evaluate e s h.follows
  refine ⟨⟨hfollows, ⟨fun name e hfind => ?_, fun name fn d hfind hd => ?_⟩, ?_, ?_, ?_⟩, hsame,
    hbinds.names⟩
  · exact h.undefining_iff.mp (htrees'.bound name e hfind)
  · exact h.undefining_iff.mp (htrees'.bodies name fn d hfind hd)
  · rw [hsame]
    exact h.makes
  · unfold NamesBuiltin
    rw [hsame]
    exact h.alone
  · rw [hsame]
    exact h.lets

theorem defining (hname : d.name ≠ "let" ∧ d.name ≠ "define")
    (hbody : d.body.NeverCalls "define") : (s.defining d).Orderly where
  follows := h.follows.install trivial
  trees := h.trees.defining hbody
  makes := (findFunction_defining_of_ne hname.2.symm).trans h.makes
  alone := by
    rintro name ⟨fn, hfind, hb⟩
    obtain ⟨-, rfl⟩ | hfind := of_findFunction_defining hfind
    · cases hb
    · exact h.alone name ⟨fn, hfind, hb⟩
  lets := (findFunction_defining_of_ne hname.1.symm).trans h.lets

end Orderly

end Session

/-- The name is defined in the session as the definition says. -/
def Definition.HoldsIn (definition : Definition) (s : Session) : Prop :=
  match definition.kind with
  | .var => s.vars.contains definition.name = true
  | .function => ∃ d, s.functions.find? definition.name = some (.ofDefined d) ∧
      d.formals = definition.params

theorem Definition.paramsOf_vars (names : List String) (rest : List Expr) :
    paramsOf (.call "args" (names.map .var) :: rest) = names := by
  change (names.map .var).filterMap Expr.asVar? = names
  rw [List.filterMap_map]
  exact List.filterMap_some

/-- What a form at the top does to the names of the session. -/
structure Expr.Effects (e : Expr) (s t : Session) : Prop where
  orderly : t.Orderly
  vars : ∀ name, s.vars.contains name = true → t.vars.contains name = true
  functions : ∀ name, (∀ definition, Definition.ofExpr? e = some definition →
    name ≠ definition.name) → t.functions.find? name = s.functions.find? name
  made : ∀ definition, Definition.ofExpr? e = some definition → definition.HoldsIn t

/-- A form that gets through defines what the index says, and nothing but that is made or lost. -/
theorem Session.Orderly.effects {s t : Session} (h : s.Orderly) {e : Expr} (he : e.DefinesAtTop)
    {v : HostValue} (hrun : evaluate e s = .ok v t) : e.Effects s t := by
  by_cases hdefine : ∃ args, e = .call "define" args
  · obtain ⟨args, rfl⟩ := hdefine
    obtain ⟨d, rfl, rfl⟩ := evaluate_define_ok h.makes hrun
    have hbody := he.nested "define" _ rfl d.body (by simp)
    refine ⟨h.defining (he.named d.name _ rfl) hbody, fun _ hname => hname, ?_, ?_⟩
    · exact fun name hname => findFunction_defining_of_ne (hname _ rfl)
    · rintro _ ⟨⟩
      exact ⟨d, findFunction_defining s d, (Definition.paramsOf_vars d.formals [d.body]).symm⟩
  · have hnever : e.NeverCalls "define" := by
      cases e with
      | call name args =>
          refine Expr.neverCalls_call_iff.mpr ⟨fun heq => hdefine ⟨args, heq ▸ rfl⟩, ?_⟩
          exact he.nested name args rfl
      | _ => exact nofun
    obtain ⟨-, rfl⟩ := Action.eq_ok_iff.mp hrun
    obtain ⟨horderly, hsame, hkept⟩ := h.final_evaluate hnever
    refine ⟨horderly, hkept, fun name _ => by rw [hsame], fun definition hdefinition => ?_⟩
    obtain ⟨name, rest, rfl, rfl⟩ | ⟨name, rest, rfl, -⟩ := Definition.shape_of_ofExpr? hdefinition
    · exact evaluate_let_contains h.lets hrun
    · exact (hdefine ⟨_, rfl⟩).elim

/-- Every symbol stands under the name that it defines, and the session has it as it says. -/
def Session.BearsOut (s : Session) (symbols : Table IndexedSymbol) : Prop :=
  ∀ name symbol, symbols.find? name = some symbol →
    symbol.definition.name = name ∧ symbol.definition.HoldsIn s

theorem TopLevel.ofExpr?_of_symbol? {item : TopLevel} {symbol : IndexedSymbol}
    (h : item.symbol? = some symbol) : Definition.ofExpr? item.expr = some symbol.definition := by
  obtain ⟨definition, hdefinition, h⟩ := Option.bind_eq_some_iff.mp h
  obtain ⟨place, -, rfl⟩ := Option.map_eq_some_iff.mp h
  exact hdefinition

namespace Session.BearsOut

variable {s t : Session} {symbols : Table IndexedSymbol} {item : TopLevel}

theorem kept (hb : s.BearsOut symbols) (h : item.expr.Effects s t) {name : String}
    {symbol : IndexedSymbol} (hfind : symbols.find? name = some symbol)
    (hname : ∀ definition, Definition.ofExpr? item.expr = some definition → name ≠ definition.name) :
    symbol.definition.name = name ∧ symbol.definition.HoldsIn t := by
  obtain ⟨rfl, hholds⟩ := hb name symbol hfind
  refine ⟨rfl, ?_⟩
  unfold Definition.HoldsIn at hholds ⊢
  cases hkind : symbol.definition.kind with
  | var =>
      rw [hkind] at hholds
      exact h.vars _ hholds
  | function =>
      rw [hkind] at hholds
      dsimp only
      rw [h.functions _ hname]
      exact hholds

theorem step (hb : s.BearsOut symbols) (h : item.expr.Effects s t)
    (hplaced : ∀ definition, Definition.ofExpr? item.expr = some definition →
      ∃ symbol, item.symbol? = some symbol ∧ symbol.definition = definition) :
    t.BearsOut (item.symbol?.elim symbols (Index.addSymbol symbols)) := by
  cases hsymbol : item.symbol? with
  | none =>
      intro name symbol hfind
      refine hb.kept h hfind fun definition hdefinition => ?_
      obtain ⟨symbol, hsome, -⟩ := hplaced definition hdefinition
      rw [hsymbol] at hsome
      cases hsome
  | some new =>
      have hnew := TopLevel.ofExpr?_of_symbol? hsymbol
      intro name symbol hfind
      rw [Option.elim_some, Index.addSymbol, Table.find?_insert] at hfind
      split_ifs at hfind with hname
      · obtain rfl := Option.some.inj hfind
        exact ⟨hname.symm, h.made _ hnew⟩
      · refine hb.kept h hfind fun definition hdefinition => ?_
        obtain rfl := Option.some.inj (hnew.symm.trans hdefinition)
        exact hname

end Session.BearsOut

theorem Session.evaluateTop_ok {s t : Session} {e : Expr} {v : HostValue}
    (h : Evaluator.evaluateTop evaluate e s = .ok v t) :
    ∃ u scratch, evaluate e s = .ok v u ∧ t = { u with scratch := scratch } := by
  obtain ⟨hresult, rfl⟩ := Action.eq_ok_iff.mp h
  unfold Evaluator.evaluateTop at hresult ⊢
  rw [Discipline.result_atTop] at hresult
  rw [Discipline.final_atTop]
  split_ifs
  · exact ⟨_, _, Action.eq_ok_iff.mpr ⟨hresult, rfl⟩, rfl⟩
  · exact ⟨_, _, Action.eq_ok_iff.mpr ⟨hresult, rfl⟩, rfl⟩

/-- All forms in order: where each of them gets through, the index agrees with the session. -/
theorem Session.BearsOut.run {items : List TopLevel} {s t : Session} {symbols : Table IndexedSymbol}
    {values : List HostValue} (hb : s.BearsOut symbols) (hs : s.Orderly)
    (hforms : ∀ item ∈ items, item.expr.DefinesAtTop)
    (hplaced : ∀ item ∈ items, ∀ definition, Definition.ofExpr? item.expr = some definition →
      ∃ symbol, item.symbol? = some symbol ∧ symbol.definition = definition)
    (hrun : Evaluator.evaluateEach evaluate (items.map (·.expr)) s = .ok values t) :
    t.BearsOut ((items.filterMap TopLevel.symbol?).foldl Index.addSymbol symbols) := by
  induction items generalizing s symbols values with
  | nil =>
      cases hrun
      exact hb
  | cons item items ih =>
      rw [List.forall_mem_cons] at hforms hplaced
      obtain ⟨v, u, hfirst, hrun⟩ := Action.bind_eq_ok_iff.mp hrun
      obtain ⟨others, t', hothers, hrun⟩ := Action.bind_eq_ok_iff.mp hrun
      cases hrun
      obtain ⟨u, scratch, hvalue, rfl⟩ := evaluateTop_ok hfirst
      have heffects := hs.effects hforms.1 hvalue
      have hstep := hb.step heffects hplaced.1
      have hrest := ih (s := { u with scratch := scratch }) hstep
        (heffects.orderly.withScratch scratch) hforms.2 hplaced.2 hothers
      cases hsymbol : item.symbol? with
      | none =>
          rw [hsymbol] at hrest
          rw [List.filterMap_cons_none hsymbol]
          exact hrest
      | some symbol =>
          rw [hsymbol] at hrest
          rw [List.filterMap_cons_some hsymbol]
          exact hrest

theorem Session.findFunction_installBuiltins {s : Session} {name : String} {fn : Function}
    (h : s.installBuiltins.functions.find? name = some fn) :
    s.functions.find? name = some fn ∨ ∃ b : Builtin, name = b.name ∧ fn = .ofBuiltin b := by
  unfold installBuiltins at h
  generalize Builtin.all = builtins at h
  induction builtins generalizing s with
  | nil => exact .inl h
  | cons b builtins ih =>
      obtain h | h := ih h
      · obtain ⟨rfl, rfl⟩ | h := Table.of_find?_insert h
        · exact .inr ⟨b, rfl, rfl⟩
        · exact .inl h
      · exact .inr h

theorem Session.orderly_installBuiltins (settings : Settings) :
    (fresh settings).installBuiltins.Orderly where
  follows := (Follows.fresh settings).installBuiltins
  trees := by
    refine ⟨nofun, fun name fn d hfind hd => ?_⟩
    obtain hfind | ⟨b, -, rfl⟩ := findFunction_installBuiltins hfind
    · cases hfind
    · cases hd
  makes := by cbv
  alone := by
    rintro name ⟨fn, hfind, hb⟩
    obtain hfind | ⟨b, rfl, rfl⟩ := findFunction_installBuiltins hfind
    · cases hfind
    · cases hb
      rfl
  lets := by cbv

/-- What the index of a text says agrees with the session that a run of the text leaves, if functions
are made at the top only and `let` and `define` are left alone: a variable of the index is bound, and
a function of the index is there with the parameters that the index gives it. -/
theorem Index.symbols_borne_out {settings : Settings} {text : String} {v : HostValue} {t : Session}
    (hforms : ∀ e ∈ (Program.ofText settings.parseDepth text none).exprs, e.DefinesAtTop)
    (hrun : Session.run text none (Session.fresh settings).installBuiltins = .ok v t) :
    ∀ name symbol, (Index.ofText text settings.parseDepth).symbols.find? name = some symbol →
      (symbol.definition.kind = .var → t.vars.contains name = true) ∧
      (symbol.definition.kind = .function → ∃ d,
        t.functions.find? name = some (.ofDefined d) ∧ d.formals = symbol.definition.params) := by
  intro name symbol hfind
  have hlimit : (Session.fresh settings).installBuiltins.parseLimit = settings.parseDepth := rfl
  unfold Session.run Evaluator.run at hrun
  rw [Action.get_bind, hlimit] at hrun
  obtain ⟨values, u, heach, hend⟩ := Action.bind_eq_ok_iff.mp hrun
  obtain rfl : u = t := by
    cases herror : (Program.ofText settings.parseDepth text none).error with
    | none =>
        rw [herror] at hend
        cases hend
        rfl
    | some error =>
        rw [herror] at hend
        cases hend
  have hitems : ∀ item ∈ (Program.ofText settings.parseDepth text none).items,
      item.expr.DefinesAtTop :=
    fun item hitem => hforms _ (List.mem_map_of_mem hitem)
  have hplaced := Program.symbol_ofStream ⟨settings.parseDepth, 0⟩ (.ofText text none)
    (.ofCursor true (.ofText text none))
  have hempty : (Session.fresh settings).installBuiltins.BearsOut .empty := nofun
  have hagrees := hempty.run (Session.orderly_installBuiltins settings) hitems hplaced heach
  obtain ⟨rfl, hholds⟩ := hagrees name symbol hfind
  unfold Definition.HoldsIn at hholds
  refine ⟨fun hkind => ?_, fun hkind => ?_⟩
  · rw [hkind] at hholds
    exact hholds
  · rw [hkind] at hholds
    exact hholds

/-- A variable and a function of one text, which are in its index and behind its run. -/
theorem Index.symbols_borne_out_both :
    let text := "define(f,args(a),a)let(x,f(1))"
    ∃ t, Session.run text none (Session.fresh ⟨9, 200, none, none⟩).installBuiltins =
        .ok (.list [.expr .void, .expr .void]) t ∧
      (Index.ofText text).symbols.names = ["f", "x"] ∧ t.vars.contains "x" = true ∧
      ∃ d, t.functions.find? "f" = some (.ofDefined d) ∧ d.formals = ["a"] := by
  intro text
  let settings : Settings := ⟨9, 200, none, none⟩
  have hexprs : (Program.ofText settings.parseDepth text none).exprs =
      [.call "define" [.var "f", .call "args" [.var "a"], .var "a"],
        .call "let" [.var "x", .call "f" [.int 1]]] := by cbv
  have hsymbols : (symbolsOf (Program.ofText settings.parseDepth text none)).entries =
      [("f", ⟨⟨"f", .function, ["a"]⟩, 0, 7⟩), ("x", ⟨⟨"x", .var, []⟩, 0, 23⟩)] := by cbv
  have hresult : (Session.run text none).result (Session.fresh settings).installBuiltins =
      .ok (.list [.expr .void, .expr .void]) := by cbv
  have hforms : ∀ e ∈ (Program.ofText settings.parseDepth text none).exprs, e.DefinesAtTop := by
    rw [hexprs, List.forall_mem_cons, List.forall_mem_singleton]
    refine ⟨⟨?_, ?_⟩, ?_, ?_⟩
    · rintro _ _ ⟨⟩
      simp [Expr.NeverCalls, Expr.Every, Expr.EveryIn]
    · rintro _ _ ⟨⟩
      decide
    · rintro _ _ ⟨⟩
      simp [Expr.NeverCalls, Expr.Every, Expr.EveryIn]
    · intro name rest heq
      simp at heq
  have hrun := Action.eq_ok_iff.mpr ⟨hresult, rfl⟩
  have hholds := symbols_borne_out hforms hrun
  unfold Table.find? ofText at hholds
  rw [hsymbols] at hholds
  refine ⟨_, hrun, ?_, (hholds "x" _ rfl).1 rfl, (hholds "f" _ rfl).2 rfl⟩
  change (symbolsOf (Program.ofText settings.parseDepth text none)).names = _
  rw [Table.names, hsymbols]
  rfl

end MacroScript
