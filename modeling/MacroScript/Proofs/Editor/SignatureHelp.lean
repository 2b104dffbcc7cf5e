import MacroScript.Proofs.Editor.OpenCalls
import MacroScript.Proofs.Editor.Symbols
import MacroScript.Proofs.Reading.WrittenForm
import MacroScript.Proofs.Text.Numeral

/-!
# Help with the signature of a call

The labels of the parameters are read back from the text of the signature: what
stands between the parentheses is divided at the commas and trimmed. A function of
a document has its parameters back in this way, as names contain no parenthesis,
no comma and no blank. A function with the name of a builtin is not shown, since
builtins come first. The parameter to highlight is the number of commas behind the
last parenthesis that was opened. This is the argument in which the text ends as
long as no call among the arguments has been closed; behind a closed call its own
commas are counted, and those before it are not.
-/
namespace MacroScript

open Text

section Labels

variable {name : String} {params : List String} {inside part rest : List Char} {c : Char}

theorem isBlank_of_isNameChar (h : isNameChar c = true) : isBlank c = false := by
  obtain ⟨hle, hle'⟩ := code_of_isNameChar h
  simp only [isBlank, Bool.or_eq_false_iff, Bool.and_eq_false_iff, decide_eq_false_iff_not,
    beq_eq_false_iff_ne]
  omega

theorem ne_of_isNameChar (h : isNameChar c = true) : c ≠ '(' ∧ c ≠ ',' := by
  obtain ⟨hle, -⟩ := code_of_isNameChar h
  constructor
  · rintro rfl
    exact absurd hle (by decide)
  · rintro rfl
    exact absurd hle (by decide)

/-- A name that can be the parameter of a function: it has characters, all of which are name
characters. -/
def IsName (name : String) : Prop := name.toList ≠ [] ∧ ∀ c ∈ name.toList, isNameChar c = true

namespace Index

theorem splitCommas_of_not_mem (h : ',' ∉ part) : splitCommas part = [part] := by
  induction part with
  | nil => rfl
  | cons c part ih =>
      rw [List.mem_cons, not_or] at h
      rw [splitCommas, if_neg (Ne.symm h.1), ih h.2]

theorem splitCommas_append (h : ',' ∉ part) :
    splitCommas (part ++ ',' :: rest) = part :: splitCommas rest := by
  induction part with
  | nil => rw [List.nil_append, splitCommas, if_pos rfl]
  | cons c part ih =>
      rw [List.mem_cons, not_or] at h
      rw [List.cons_append, splitCommas, if_neg (Ne.symm h.1), ih h.2]

theorem splitCommas_ne_nil (cs : List Char) : splitCommas cs ≠ [] := by
  cases cs with
  | nil => exact List.cons_ne_nil _ _
  | cons c cs =>
      rw [splitCommas]
      split_ifs
      · exact List.cons_ne_nil _ _
      · cases splitCommas cs <;> exact List.cons_ne_nil _ _

theorem trimmed_splitCommas_blank (rest : List Char) :
    (splitCommas (' ' :: rest)).map trimBlanks = (splitCommas rest).map trimBlanks := by
  rw [splitCommas, if_neg (by decide)]
  cases hparts : splitCommas rest with
  | nil => exact absurd hparts (splitCommas_ne_nil rest)
  | cons part parts => rfl

/-- Names that were joined are divided again, each with the blank before it trimmed away. -/
theorem trimmed_splitCommas_intercalate (h : ∀ param ∈ params, IsName param) (hne : params ≠ []) :
    (splitCommas ([',', ' '].intercalate (params.map String.toList))).map trimBlanks =
      params.map String.toList := by
  induction params with
  | nil => exact absurd rfl hne
  | cons param params ih =>
      rw [List.forall_mem_cons] at h
      have hcomma : ',' ∉ param.toList := fun hmem => (ne_of_isNameChar (h.1.2 _ hmem)).2 rfl
      have htrimmed : trimBlanks param.toList = param.toList :=
        trimBlanks_eq_self fun c hc => isBlank_of_isNameChar (h.1.2 c hc)
      cases params with
      | nil =>
          rw [List.map_singleton, List.intercalate_singleton, splitCommas_of_not_mem hcomma,
            List.map_singleton, htrimmed]
      | cons next params =>
          have hrest := ih h.2 (List.cons_ne_nil _ _)
          rw [List.map_cons] at hrest ⊢
          rw [List.map_cons, List.intercalate_cons_cons, List.append_assoc, List.cons_append,
            List.singleton_append, splitCommas_append hcomma, List.map_cons, htrimmed,
            trimmed_splitCommas_blank, hrest]

/-- What was put between parentheses behind a name is found between them again. -/
theorem parenthesized_append (h : '(' ∉ name.toList) :
    parenthesized (name.toList ++ '(' :: (inside ++ [')'])) = inside := by
  rw [parenthesized, dropWhile_run (bne_of_not_mem h) (by simp)]
  simp

/-- The labels read from a signature are the parameters that it was made of. -/
theorem paramLabels_signature (hname : '(' ∉ name.toList) (h : ∀ param ∈ params, IsName param) :
    paramLabels (name ++ "(" ++ String.intercalate ", " params ++ ")") = params := by
  have hlabel : (name ++ "(" ++ String.intercalate ", " params ++ ")").toList =
      name.toList ++ '(' :: ([',', ' '].intercalate (params.map String.toList) ++ [')']) := by
    simp [String.toList_intercalate]
  rw [paramLabels, hlabel, parenthesized_append hname]
  by_cases hne : params = []
  · rw [hne]
    rfl
  · rw [trimmed_splitCommas_intercalate h hne, List.filterMap_map]
    have hsame : ∀ param ∈ params, (nonempty? ∘ String.toList) param = some param := by
      intro param hparam
      simp [nonempty?, (h param hparam).1]
    rw [List.filterMap_congr hsame, List.filterMap_some]

end Index

end Labels

section Functions

variable {e : Expr} {definition : Definition} {text name : String} {symbol : IndexedSymbol}
  {limit : Int}

theorem Definition.names_of_ofExpr? (he : e.Every Expr.Spelled)
    (h : ofExpr? e = some definition) :
    IsName definition.name ∧ ∀ param ∈ definition.params, IsName param := by
  have hnamed : ∀ {name : String}, (Expr.var name).Every Expr.Spelled → IsName name := by
    intro name hvar
    obtain ⟨-, hspelled, -⟩ := hvar
    exact ⟨hspelled.1, fun c hc => isNameChar_iff.mpr (hspelled.2 c hc)⟩
  obtain ⟨name, rest, rfl, rfl⟩ | ⟨name, rest, rfl, rfl⟩ := shape_of_ofExpr? h
  · rw [Expr.every_call_iff, List.forall_mem_cons] at he
    exact ⟨hnamed he.2.1, nofun⟩
  · rw [Expr.every_call_iff, List.forall_mem_cons] at he
    refine ⟨hnamed he.2.1, ?_⟩
    intro param hparam
    dsimp only at hparam
    unfold paramsOf at hparam
    split at hparam
    case h_1 params others =>
      rw [List.forall_mem_cons, Expr.every_call_iff] at he
      obtain ⟨arg, harg, hvar⟩ := List.mem_filterMap.mp hparam
      cases arg with
      | var other =>
          obtain rfl : other = param := Option.some.inj hvar
          exact hnamed (he.2.2.1.2 _ harg)
      | _ => cases hvar
    case h_2 => cases hparam

theorem Index.names_of_find? (h : (ofText text limit).symbols.find? name = some symbol) :
    symbol.definition.name = name ∧ IsName name ∧
      ∀ param ∈ symbol.definition.params, IsName param := by
  obtain ⟨before, item, after, hitems, hsymbol, rfl, -⟩ := find?_foldl_addSymbol_eq_some_iff.mp h
  have hexpr : item.expr ∈ (Program.ofText limit text none).exprs := by
    apply List.mem_map_of_mem
    rw [hitems]
    simp
  have hspelled := ((Program.exprs_ofStream _ _).1 _ hexpr).1
  exact ⟨rfl, Definition.names_of_ofExpr? hspelled (TopLevel.ofExpr?_of_symbol? hsymbol)⟩

theorem Definition.signature_of_function (h : definition.kind = .function) :
    definition.signature =
      definition.name ++ "(" ++ String.intercalate ", " definition.params ++ ")" := by
  unfold signature
  rw [h]
  rfl

/-- A function of a document is shown as a call with its parameters, and its parameters are the
labels, unless it has the name of a builtin. Then the signature of the builtin is shown. -/
theorem Index.signatureFor_function
    (hfind : (ofText text limit).symbols.find? name = some symbol)
    (hkind : symbol.definition.kind = .function) :
    (Builtin.named? name = none → (ofText text limit).signatureFor name =
      some ⟨name ++ "(" ++ String.intercalate ", " symbol.definition.params ++ ")",
        symbol.definition.params⟩) ∧
    ∀ b, Builtin.named? name = some b →
      ∃ params, (ofText text limit).signatureFor name = some ⟨b.signature, params⟩ := by
  unfold signatureFor signatureLabel
  constructor
  · intro hlocal
    obtain ⟨hname, hspelled, hparams⟩ := names_of_find? hfind
    have hparen : '(' ∉ name.toList := fun hmem => (ne_of_isNameChar (hspelled.2 _ hmem)).1 rfl
    have hsignature := Definition.signature_of_function hkind
    rw [hname] at hsignature
    rw [hlocal, hfind, Option.bind_some]
    dsimp only
    rw [hkind]
    dsimp only
    rw [Option.map_some, hsignature, paramLabels_signature hparen hparams]
  · intro b hbuiltin
    rw [hbuiltin]
    exact ⟨_, rfl⟩

/-- A function with two parameters, defined with ignored characters between them. -/
theorem Index.signatureFor_function_twoParams :
    let index := ofText "define(ping,args(who , n),who)"
    (∃ symbol, index.symbols.find? "ping" = some symbol ∧ symbol.definition.kind = .function ∧
      symbol.definition.params = ["who", "n"]) ∧
    Builtin.named? "ping" = none ∧
    index.signatureFor "ping" = some ⟨"ping(who, n)", ["who", "n"]⟩ := by
  intro index
  have hfind : index.symbols.find? "ping" =
      some ⟨⟨"ping", .function, ["who", "n"]⟩, 0, 7⟩ := by cbv
  have hlocal : Builtin.named? "ping" = none := by cbv
  exact ⟨⟨_, hfind, rfl, rfl⟩, hlocal, (signatureFor_function hfind rfl).1 hlocal⟩

/-- A document can define a function with the name of a builtin. Its own parameters are not shown. -/
theorem Index.signatureFor_redefinedBuiltin :
    let index := ofText "define(add,args(x),x)"
    ∃ symbol, index.symbols.find? "add" = some symbol ∧ symbol.definition.kind = .function ∧
      symbol.definition.signature = "add(x)" ∧ symbol.definition.params = ["x"] ∧
      index.signatureFor "add" = some ⟨"add(n, ...)", ["n", "..."]⟩ ∧
      index.signatureFor "add" ≠
        some ⟨symbol.definition.signature, symbol.definition.params⟩ := by
  intro index
  have hfind : index.symbols.find? "add" = some ⟨⟨"add", .function, ["x"]⟩, 0, 7⟩ := by cbv
  have hshown : index.signatureFor "add" = some ⟨"add(n, ...)", ["n", "..."]⟩ := by cbv
  refine ⟨_, hfind, rfl, by cbv, rfl, hshown, ?_⟩
  rw [hshown]
  decide

end Functions

section ActiveParameter

variable {workspace : Workspace} {uri callee : String} {position : Position} {help : SignatureHelp}
  {cs : List Char}

theorem exists_openParens (h : openCallee cs = some callee) :
    ∃ paren outer, openParens cs = paren :: outer := by
  obtain ⟨before, hbefore, -⟩ := Option.bind_eq_some_iff.mp h
  rw [beforeOpenParen_eq] at hbefore
  cases hopened : openParens cs with
  | nil =>
      rw [hopened] at hbefore
      cases hbefore
  | cons paren outer => exact ⟨paren, outer, rfl⟩

/-- The parameter that is highlighted is the number of the commas behind the last parenthesis of the
line before the position. Against the commas directly inside the innermost open call it misses those
before this parenthesis, and counts those behind it that belong to calls which are closed. It is
right if the last parenthesis is the open one, that is, if no argument so far has a call in it. -/
theorem Workspace.signatureHelp_activeParam
    (h : workspace.signatureHelp uri position = some help) :
    ∃ document paren outer last, workspace.document? uri = some document ∧
      let before := lineBefore document.text position
      openParens before = paren :: outer ∧ IsLastParen before last ∧
        help.activeParam = (commasBehind before last).card ∧
        help.activeParam + ((commasInside before paren).filter (· < last)).card =
          (commasInside before paren).card +
            (commasBehind before last \ commasInside before paren).card ∧
        (last = paren → help.activeParam = (commasInside before paren).card) := by
  obtain ⟨document, hdocument, hhelp⟩ := Option.bind_eq_some_iff.mp h
  obtain ⟨callee, hcallee, hhelp⟩ := Option.bind_eq_some_iff.mp hhelp
  obtain ⟨signature, -, rfl⟩ := Option.map_eq_some_iff.mp hhelp
  obtain ⟨paren, outer, hopened⟩ := exists_openParens hcallee
  have hmem : paren ∈ openParens (lineBefore document.text position) :=
    hopened ▸ List.mem_cons_self
  obtain ⟨last, hlast, hcount⟩ := argumentIndex_eq_card (getElem?_of_mem_openParens hmem)
  refine ⟨document, paren, outer, last, hdocument, hopened, hlast, hcount, ?_, ?_⟩
  · dsimp only
    rw [hcount, ← hlast.commasInside_sdiff, Nat.add_comm, Finset.card_sdiff_add_card, Nat.add_comm,
      Finset.card_sdiff_add_card, Finset.union_comm]
  · intro heq
    rw [heq] at hlast hcount
    dsimp only
    rw [hcount, hlast.commasInside_eq]

/-- Behind a call that is closed its own comma counts like one of the call around it. -/
theorem Workspace.signatureHelp_activeParam_closedCall :
    let workspace := (empty.put "a.em" "if(eql(1,2),3,4)").2
    let before := "if(eql(1,2),".toList
    ∃ help last, workspace.signatureHelp "a.em" ⟨0, 12⟩ = some help ∧ openParens before = [2] ∧
      IsLastParen before last ∧ help.activeParam = (commasBehind before last).card ∧
      help.activeParam = 2 ∧ (commasInside before 2).card = 1 := by
  intro workspace before
  have hhelp : workspace.signatureHelp "a.em" ⟨0, 12⟩ =
      some ⟨⟨"if(cond, then, else)", ["cond", "then", "else"]⟩, 2⟩ := by cbv
  obtain ⟨document, paren, outer, last, hdocument, hopened, hlast, hcount, -⟩ :=
    signatureHelp_activeParam hhelp
  have htext : document.text = "if(eql(1,2),3,4)" := by
    have hopen : workspace.document? "a.em" = some (.ofText "if(eql(1,2),3,4)") := by cbv
    rw [hopen] at hdocument
    rw [← Option.some.inj hdocument]
    rfl
  have hbefore : lineBefore document.text ⟨0, 12⟩ = before := by
    rw [htext]
    cbv
  rw [hbefore] at hlast hcount
  exact ⟨_, last, hhelp, by decide, hlast, hcount, rfl, by decide⟩

end ActiveParameter

end MacroScript
