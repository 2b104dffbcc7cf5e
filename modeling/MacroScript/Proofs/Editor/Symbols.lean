import MacroScript.Proofs.Editor.WordLookup
import MacroScript.Proofs.Reading.Descent

/-!
# The symbols of the index

The index of a text has the names that the forms at the top define, in the order
in which they are defined first, and each of them as the last form for it says.
The place of a name is found by scanning the form once more from its beginning
and counting tokens. This finds the first argument of the form, whatever ignored
characters stand between the tokens, since a call begins with its name and a
parenthesis.
-/
namespace MacroScript

namespace Expr

/-- The name that a form defines: the variable that is the first argument of a call of `let` or of
`define`. -/
def definedName? : Expr → Option String
  | .call head (.var name :: _) => if head = "let" ∨ head = "define" then some name else none
  | _ => none

/-- What a form defines. A function has the variables among its parameters, which stand in a call of
`args` behind the name. -/
inductive Defines : Expr → Definition → Prop
  | var (name : String) (rest : List Expr) :
      Defines (.call "let" (.var name :: rest)) ⟨name, .var, []⟩
  | function (name : String) (params rest : List Expr) :
      Defines (.call "define" (.var name :: .call "args" params :: rest))
        ⟨name, .function, params.filterMap asVar?⟩
  | bare (name : String) (rest : List Expr) : (∀ params, rest.head? ≠ some (.call "args" params)) →
      Defines (.call "define" (.var name :: rest)) ⟨name, .function, []⟩

theorem paramsOf_eq_nil {rest : List Expr}
    (h : ∀ params, rest.head? ≠ some (.call "args" params)) : Definition.paramsOf rest = [] := by
  unfold Definition.paramsOf
  split
  · exact absurd rfl (h _)
  · rfl

variable {e : Expr} {definition : Definition} {name : String}

theorem defines_iff : e.Defines definition ↔ Definition.ofExpr? e = some definition := by
  constructor
  · intro h
    cases h with
    | var name rest => rfl
    | function name params rest => rfl
    | bare name rest hrest =>
        rw [← paramsOf_eq_nil hrest]
        rfl
  · intro h
    obtain ⟨name, rest, rfl, rfl⟩ | ⟨name, rest, rfl, rfl⟩ := Definition.shape_of_ofExpr? h
    · exact .var name rest
    · by_cases hargs : ∃ params, rest.head? = some (.call "args" params)
      · obtain ⟨params, hhead⟩ := hargs
        obtain ⟨others, rfl⟩ := List.head?_eq_some_iff.mp hhead
        exact .function name params others
      · have hnone : ∀ params, rest.head? ≠ some (.call "args" params) := fun params hhead =>
          hargs ⟨params, hhead⟩
        rw [paramsOf_eq_nil hnone]
        exact .bare name rest hnone

theorem definedName?_eq_some_iff : e.definedName? = some name ↔
    ∃ definition, e.Defines definition ∧ definition.name = name := by
  constructor
  · intro h
    unfold definedName? at h
    split at h
    · split_ifs at h with hhead
      cases h
      obtain rfl | rfl := hhead
      · exact ⟨_, .var _ _, rfl⟩
      · exact ⟨_, defines_iff.mpr rfl, rfl⟩
    · cases h
  · rintro ⟨definition, h, rfl⟩
    cases h <;> rfl

end Expr

/-- The token is the first argument of the call at the beginning of the form. -/
def TopLevel.HasFirstArgument (item : TopLevel) (token : Token) : Prop :=
  ∃ head opening others after more,
    item.expr = (Derivation.call head opening (.name token) others).expr ∧
      (Derivation.call head opening (.name token) others).Spans item.tokens after more

/-- The token stands in the text at a row and a column, and the word goes on at neither end. Rows
are counted by newlines. -/
def Token.StandsAt (token : Token) (text : String) (row column : Nat) : Prop :=
  ∃ before after, text.toList = before ++ (token.text.toList ++ after) ∧
    IsWord before token.text.toList after ∧
    Location.behind before none = ⟨row, column, none⟩ ∧ token.location = ⟨row, column, none⟩

/-- The form bears the symbol: it makes the definition, and the name stands at the place. -/
structure TopLevel.Bears (item : TopLevel) (text : String) (symbol : IndexedSymbol) : Prop where
  defines : item.expr.Defines symbol.definition
  stands : ∃ token, item.HasFirstArgument token ∧ token.kind = .symbol ∧
    token.text = symbol.definition.name ∧ token.StandsAt text symbol.row symbol.column

namespace TopLevel

variable {item : TopLevel} {token : Token}

/-- The first argument is the third token, behind the name of the call and the parenthesis. -/
theorem HasFirstArgument.third (h : item.HasFirstArgument token) :
    ∃ head behindHead opening behindOpening after more, token.kind = .symbol ∧
      item.tokens =
        .token head behindHead (.token opening behindOpening (.token token after more)) := by
  obtain ⟨head, opening, others, after, more, -, hspans⟩ := h
  obtain ⟨behindHead, behindOpening, inside, behindFirst, rest, hstream, -, -,
    ⟨rfl, hkind, -⟩, -⟩ := hspans
  exact ⟨head, behindHead, opening, behindOpening, behindFirst, rest, hkind, hstream⟩

theorem HasFirstArgument.argumentLocation? (h : item.HasFirstArgument token) :
    item.argumentLocation? = some token.location := by
  obtain ⟨head, behindHead, opening, behindOpening, after, more, hkind, hstream⟩ := h.third
  have hget : item.tokens.get? 2 = some token := by
    rw [hstream]
    rfl
  unfold TopLevel.argumentLocation?
  rw [hget]
  exact if_pos hkind

theorem hasFirstArgument {d : Derivation} {after : Cursor} {more : TokenStream}
    (hexpr : item.expr = d.expr) (hspans : d.Spans item.tokens after more) {head name : String}
    {rest : List Expr} (he : item.expr = .call head (.var name :: rest)) :
    ∃ token, item.HasFirstArgument token ∧ token.text = name := by
  cases d with
  | call headToken opening first others =>
      rw [hexpr, Derivation.expr] at he
      have hfirst := (List.cons.inj (Expr.call.inj he).2).1
      cases first with
      | name token =>
          refine ⟨token, ?_, Expr.var.inj hfirst⟩
          exact ⟨headToken, opening, others, after, more, hexpr, hspans⟩
      | _ => simp [Derivation.expr] at hfirst
  | _ =>
      rw [hexpr] at he
      simp [Derivation.expr] at he

end TopLevel

section Programs

variable {limit : Int} {text : String} {item : TopLevel} {symbol : IndexedSymbol}

theorem TopLevel.bears_iff (hitem : item ∈ (Program.ofText limit text none).items) :
    item.Bears text symbol ↔ item.symbol? = some symbol := by
  obtain ⟨⟨d, after, more, hexpr, hspans⟩, hsuffix⟩ := Program.spans_of_mem _ _ _ item hitem
  constructor
  · rintro ⟨hdefines, token, hargument, -, -, before, rest, -, -, -, hlocation⟩
    unfold symbol?
    rw [Expr.defines_iff.mp hdefines, hargument.argumentLocation?, hlocation]
    rfl
  · intro h
    have hdefinition := ofExpr?_of_symbol? h
    have hdefines := Expr.defines_iff.mpr hdefinition
    obtain ⟨head, rest, he⟩ : ∃ head rest,
        item.expr = .call head (.var symbol.definition.name :: rest) := by
      obtain ⟨name, rest, he, hd⟩ | ⟨name, rest, he, hd⟩ := Definition.shape_of_ofExpr? hdefinition
      · exact ⟨_, rest, by rw [he, hd]⟩
      · exact ⟨_, rest, by rw [he, hd]⟩
    obtain ⟨token, hargument, hname⟩ := hasFirstArgument hexpr hspans he
    obtain ⟨_, _, _, _, _, _, hkind, hstream⟩ := hargument.third
    have hmem : token ∈ item.tokens.tokens := by
      rw [hstream]
      simp [TokenStream.tokens]
    obtain ⟨before, rest, htext, hlocation, hword⟩ :=
      TokenStream.isWord_of_symbol (hsuffix.mem hmem) hkind
    unfold symbol? at h
    rw [hdefinition, hargument.argumentLocation?] at h
    have hsymbol : IndexedSymbol.mk symbol.definition token.location.row token.location.column =
        symbol :=
      Option.some.inj h
    have hplace : token.location = ⟨symbol.row, symbol.column, none⟩ := by
      rw [← hsymbol, hlocation]
      rfl
    refine ⟨hdefines, token, hargument, hkind, hname, before, rest, htext, hword, ?_, hplace⟩
    exact hlocation ▸ hplace

theorem TopLevel.symbol?_name (hitem : item ∈ (Program.ofText limit text none).items) :
    item.symbol?.map (·.definition.name) = item.expr.definedName? := by
  have hplaced := Program.symbol_ofStream _ _ _ item hitem
  cases hdefinition : Definition.ofExpr? item.expr with
  | none =>
      have hnone : item.symbol? = none := by
        unfold symbol?
        rw [hdefinition]
        rfl
      rw [hnone]
      symm
      rw [Option.map_none, Option.eq_none_iff_forall_ne_some]
      intro name hname
      obtain ⟨definition, hdefines, -⟩ := Expr.definedName?_eq_some_iff.mp hname
      rw [Expr.defines_iff.mp hdefines] at hdefinition
      cases hdefinition
  | some definition =>
      obtain ⟨symbol, hsymbol, rfl⟩ := hplaced definition hdefinition
      rw [hsymbol]
      exact (Expr.definedName?_eq_some_iff.mpr ⟨_, Expr.defines_iff.mpr hdefinition, rfl⟩).symm

end Programs

section Tables

/-- The names of the symbols, in the order in which they are defined first. -/
theorem Index.names_foldl_addSymbol (added : List IndexedSymbol) :
    (added.foldl addSymbol .empty).names = (added.map (·.definition.name)).eraseDups := by
  induction added using List.reverseRecOn with
  | nil => rfl
  | append_singleton added symbol ih =>
      rw [List.foldl_concat, addSymbol, Table.names_insert, ih, List.map_append,
        List.eraseDups_append, List.map_singleton]
      by_cases hmem : symbol.definition.name ∈ added.map (·.definition.name)
      · have hold : [symbol.definition.name].removeAll (added.map (·.definition.name)) = [] := by
          simp only [List.removeAll, List.filter_singleton, List.elem_eq_true_of_mem hmem]
          rfl
        rw [if_pos (List.mem_eraseDups.mpr hmem), hold, List.eraseDups_nil, List.append_nil]
      · have hnew : [symbol.definition.name].removeAll (added.map (·.definition.name)) =
            [symbol.definition.name] := by
          have helem : List.elem symbol.definition.name (added.map (·.definition.name)) = false :=
            Bool.eq_false_iff.mpr fun h => hmem (List.mem_of_elem_eq_true h)
          simp only [List.removeAll, List.filter_singleton, helem]
          rfl
        rw [if_neg (fun h => hmem (List.mem_eraseDups.mp h)), hnew]
        rfl

/-- A name has the symbol of the last form that has one for it. -/
theorem Index.find?_foldl_addSymbol (items : List TopLevel) (name : String) :
    ((items.filterMap TopLevel.symbol?).foldl addSymbol .empty).find? name =
      items.reverse.findSome? fun item => item.symbol?.filter (·.definition.name = name) := by
  induction items using List.reverseRecOn with
  | nil => rfl
  | append_singleton items item ih =>
      rw [List.filterMap_append, List.reverse_append, List.foldl_append, List.reverse_singleton,
        List.singleton_append, List.findSome?_cons, ← ih]
      cases hsymbol : item.symbol? with
      | none =>
          rw [List.filterMap_cons_none hsymbol]
          rfl
      | some symbol =>
          rw [List.filterMap_cons_some hsymbol, List.filterMap_nil, List.foldl_cons, List.foldl_nil,
            addSymbol, Table.find?_insert, Option.filter_some]
          by_cases hname : name = symbol.definition.name
          · simp [hname]
          · simp [hname, Ne.symm hname]

variable {items : List TopLevel} {name : String} {symbol : IndexedSymbol}

theorem Index.find?_foldl_addSymbol_eq_some_iff :
    ((items.filterMap TopLevel.symbol?).foldl addSymbol .empty).find? name = some symbol ↔
      ∃ before item after, items = before ++ item :: after ∧ item.symbol? = some symbol ∧
        symbol.definition.name = name ∧
        ∀ later ∈ after, later.symbol?.map (·.definition.name) ≠ some name := by
  have hnone : ∀ item : TopLevel, item.symbol?.filter (·.definition.name = name) = none ↔
      item.symbol?.map (·.definition.name) ≠ some name := by
    intro item
    cases item.symbol? <;> simp
  rw [find?_foldl_addSymbol, List.findSome?_eq_some_iff]
  simp only [Option.filter_eq_some_iff, hnone, decide_eq_true_eq]
  constructor
  · rintro ⟨after, item, before, hitems, ⟨hsymbol, hname⟩, hlater⟩
    refine ⟨before.reverse, item, after.reverse, ?_, hsymbol, hname, ?_⟩
    · rw [← List.reverse_reverse items, hitems]
      simp
    · exact fun later hmem => hlater later (List.mem_reverse.mp hmem)
  · rintro ⟨before, item, after, rfl, hsymbol, hname, hlater⟩
    refine ⟨after.reverse, item, before.reverse, by simp, ⟨hsymbol, hname⟩, ?_⟩
    exact fun later hmem => hlater later (List.mem_reverse.mp hmem)

end Tables

/-- Find the place of a name by scanning its form once more: it is the third token, if that is a
symbol. -/
def Descent.nameLocation : Action Cursor (Option Location) := do
  let _ ← nextToken true
  let _ ← nextToken true
  let token ← nextToken true
  return if token.kind = .symbol then some token.location else none

theorem Descent.nameLocation_eq {cursor behindHead behindOpening after : Cursor}
    {head opening token : Token} {more : TokenStream}
    (h : TokenStream.ofCursor true cursor =
      .token head behindHead (.token opening behindOpening (.token token after more))) :
    nameLocation cursor =
      .ok (if token.kind = .symbol then some token.location else none) after := by
  have hnext := (TokenStream.endsAt_of_ofCursor h).2.symm
  have hthird := (TokenStream.endsAt_of_ofCursor hnext).2.symm
  have hfirst' : nextToken true cursor = .ok head behindHead := by
    rw [nextToken_eq, (TokenStream.scan_of_token h).1]
    rfl
  have hnext' : nextToken true behindHead = .ok opening behindOpening := by
    rw [nextToken_eq, (TokenStream.scan_of_token hnext).1]
    rfl
  have hthird' : nextToken true behindOpening = .ok token after := by
    rw [nextToken_eq, (TokenStream.scan_of_token hthird).1]
    rfl
  unfold nameLocation
  rw [Action.bind_of_ok hfirst', Action.bind_of_ok hnext', Action.bind_of_ok hthird']
  rfl

/-- The symbols of a text are the definitions at the top of it, before the first error: the names
in the order in which they are defined first, and each name as the last form for it defines it, at
the place of the symbol token that is the first argument of this form. Scanning the form again
from where its reading started, behind ignored characters, finds this place. -/
theorem Index.symbols_exact (limit : Int) (text : String) :
    let start := Cursor.ofText text none
    let program := Program.ofText limit text none
    let symbols := symbolsOf program
    (ofText text limit).symbols = symbols ∧
    program.Collects ⟨limit, 0⟩ start ∧
    symbols.names = (program.exprs.filterMap Expr.definedName?).eraseDups ∧
    (∀ name symbol, symbols.find? name = some symbol ↔
      ∃ before item after, program.items = before ++ item :: after ∧ item.Bears text symbol ∧
        symbol.definition.name = name ∧ ∀ later ∈ after, later.expr.definedName? ≠ some name) ∧
    ∀ n item symbol, program.items[n]? = some item → item.Bears text symbol →
      ∃ after, Descent.nameLocation (start.afterReadings ⟨limit, 0⟩ n).skipIllegals =
        .ok (some ⟨symbol.row, symbol.column, none⟩) after := by
  intro start program symbols
  have hcollects : program.Collects ⟨limit, 0⟩ start := Program.collects ⟨limit, 0⟩ start
  refine ⟨rfl, hcollects, ?_, ?_, ?_⟩
  · have hnames : program.items.filterMap (fun item => item.symbol?.map (·.definition.name)) =
        program.items.filterMap fun item => item.expr.definedName? :=
      List.filterMap_congr fun item hitem => TopLevel.symbol?_name hitem
    change (symbolsOf program).names = _
    rw [symbolsOf, names_foldl_addSymbol, List.map_filterMap, hnames, Program.exprs,
      List.filterMap_map]
    rfl
  · intro name symbol
    change (symbolsOf program).find? name = some symbol ↔ _
    rw [symbolsOf, find?_foldl_addSymbol_eq_some_iff]
    refine exists₃_congr fun before item after => and_congr_right fun hitems => ?_
    have hmem : ∀ later ∈ item :: after, later ∈ program.items := fun later h => by
      rw [hitems]
      exact List.mem_append_right before h
    rw [TopLevel.bears_iff (hmem item List.mem_cons_self)]
    refine and_congr_right fun _ => and_congr_right fun _ => forall₂_congr fun later h => ?_
    rw [TopLevel.symbol?_name (hmem later (List.mem_cons_of_mem item h))]
  · intro n item symbol hitem hbears
    obtain ⟨token, hargument, -, -, -, -, -, -, -, hlocation⟩ := hbears.stands
    obtain ⟨_, _, _, _, after, _, hkind, hstream⟩ := hargument.third
    have htokens := (Cursor.readExpr_skipIllegals ⟨limit, 0⟩ (start.afterReadings ⟨limit, 0⟩ n)).1
    rw [← hcollects.tokens n item hitem, hstream] at htokens
    refine ⟨after, ?_⟩
    rw [Descent.nameLocation_eq htokens, if_pos hkind, hlocation]

end MacroScript
