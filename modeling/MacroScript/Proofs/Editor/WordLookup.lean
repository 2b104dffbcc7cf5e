import MacroScript.Editor.Workspace
import MacroScript.Proofs.Editor.Agreement
import MacroScript.Proofs.Text.Lines
import MacroScript.Proofs.Token.Tiling

/-!
# Looking up the words of a text

The editor finds a word by the characters around a position, the language finds
symbols by scanning from the beginning of the text. Both divide a line into the
same words, so a symbol is found wherever one points at it, as long as the
editor's lines are the language's rows up to there. If a row has been divided
into several lines, then nothing is found at the positions behind the first of
them.
-/
namespace MacroScript

open Text

theorem isNameChar_iff {c : Char} : isNameChar c = true ↔ TokenKind.ofChar c = .symbol :=
  TokenKind.includes_iff _ c

/-- The characters of names are ASCII characters behind the comma. -/
theorem code_of_isNameChar {c : Char} (h : isNameChar c = true) :
    45 ≤ c.toNat ∧ c.toNat ≤ 122 := by
  rw [isNameChar_iff, TokenKind.ofChar] at h
  split_ifs at h with hc
  simp only [Char.isAlpha, Char.isUpper, Char.isLower, Bool.or_eq_true, Bool.and_eq_true,
    ge_iff_le, decide_eq_true_eq, UInt32.le_iff_toNat_le] at hc
  change (((65 ≤ c.toNat ∧ c.toNat ≤ 90) ∨ (97 ≤ c.toNat ∧ c.toNat ≤ 122)) ∨ c = '_') ∨ c = '-'
    at hc
  rcases hc with ((hupper | hlower) | rfl) | rfl
  · omega
  · omega
  · decide
  · decide

theorem isLineEnd_of_isNameChar {c : Char} (h : isNameChar c = true) : isLineEnd c = false := by
  obtain ⟨hle, hle'⟩ := code_of_isNameChar h
  simp only [isLineEnd, Bool.or_eq_false_iff, Bool.and_eq_false_iff, decide_eq_false_iff_not,
    beq_eq_false_iff_ne]
  omega

/-- A name in a text, which goes on at neither end. -/
structure IsWord (before name after : List Char) : Prop where
  nonempty : name ≠ []
  name : ∀ c ∈ name, isNameChar c = true
  before : ∀ c ∈ before.getLast?, isNameChar c = false
  after : ∀ c ∈ after.head?, isNameChar c = false

theorem trailingName_append {before name : List Char} (hname : ∀ c ∈ name, isNameChar c = true)
    (hbefore : ∀ c ∈ before.getLast?, isNameChar c = false) :
    trailingName (before ++ name) = name := by
  have hall : ∀ c ∈ name.reverse, isNameChar c = true :=
    fun c hc => hname c (List.mem_reverse.mp hc)
  have hstop : ∀ c ∈ before.reverse.head?, isNameChar c = false := by
    rw [List.head?_reverse]
    exact hbefore
  rw [trailingName, List.reverse_append, takeWhile_run hall hstop, List.reverse_reverse]

theorem wordAround_lineEnd (run : List Char) {e : Char} (he : isLineEnd e = true) :
    wordAround (run ++ [e]) (run ++ [e]).length = [] := by
  have hname : isNameChar e = false := by
    by_contra hname
    rw [isLineEnd_of_isNameChar (Bool.not_eq_false _ ▸ hname)] at he
    cases he
  simp [wordAround, trailingName, hname]

namespace IsWord

variable {before name after rows row rest : List Char} {k : Nat}

/-- The word is found from every place within it, and from either end. -/
theorem wordAround (h : IsWord before name after) (hk : k ≤ name.length) :
    wordAround (before ++ (name ++ after)) (before.length + k) = name := by
  have htake : ∀ c ∈ name.take k, isNameChar c = true := fun c hc => h.name c (List.mem_of_mem_take hc)
  have hdrop : ∀ c ∈ name.drop k, isNameChar c = true := fun c hc => h.name c (List.mem_of_mem_drop hc)
  rw [MacroScript.wordAround, List.take_length_add_append, List.drop_length_add_append,
    List.take_append_of_le_length hk, List.drop_append_of_le_length hk,
    trailingName_append htake h.before, takeWhile_run hdrop h.after, List.take_append_drop]

theorem onLine (h : IsWord (rows ++ row) name rest) : IsWord row name ((lines rest).headD []) where
  nonempty := h.nonempty
  name := h.name
  before c hc := by
    apply h.before c
    rw [List.getLast?_append, Option.mem_def.mp hc]
    rfl
  after c hc := by
    rw [head?_firstLine] at hc
    exact h.after c hc

/-- The word is found on the line that begins with what is begun of its row. -/
theorem wordAt (h : IsWord (rows ++ row) name rest) {text : String}
    (htext : text.toList = rows ++ (row ++ (name ++ rest))) (hclean : HasRowsAsLines (rows ++ row))
    (hrows : CompleteRows rows) (hrow : '\n' ∉ row) (hk : k ≤ name.length) :
    wordAt text ⟨rows.count '\n', row.length + k⟩ = .ok (some (String.ofList name)) := by
  have hrun : ∀ c ∈ row ++ name, isLineEnd c = false := by
    rw [List.forall_mem_append]
    exact ⟨hclean.row_clean hrow, fun c hc => isLineEnd_of_isNameChar (h.name c hc)⟩
  have hline : (lines text.toList)[rows.count '\n']? =
      some (row ++ (name ++ (lines rest).headD [])) := by
    rw [htext, getElem?_lines (hclean.of_rows hrows) hrows, ← List.append_assoc,
      lines_run hrun (by simp [h.nonempty]), List.head?_cons, List.append_assoc]
  have hlength : ¬ (row ++ (name ++ (lines rest).headD [])).length < row.length + k := by
    simp only [List.length_append]
    omega
  have hword : nonempty? name = some (String.ofList name) := by
    simp [nonempty?, h.nonempty]
  unfold MacroScript.wordAt
  rw [hline]
  dsimp only
  rw [if_neg hlength, h.onLine.wordAround hk, hword]

theorem wordAt_of_divided (h : IsWord (rows ++ row) name rest) {text : String}
    (htext : text.toList = rows ++ (row ++ (name ++ rest))) (hclean : HasRowsAsLines rows)
    (hrows : CompleteRows rows) (hrow : '\n' ∉ row) (hend : ∃ c ∈ row, isLineEnd c = true)
    (word : String) :
    MacroScript.wordAt text ⟨rows.count '\n', row.length + k⟩ ≠ .ok (some word) := by
  obtain ⟨run, e, tail, rfl, hrun, he⟩ := exists_firstLineEnd hend
  -- The newline of a carriage return would be in the row or in the word.
  have hcrlf : e = '\r' → (tail ++ (name ++ rest)).head? ≠ some '\n' := by
    rintro - hhead
    cases tail with
    | cons d tail =>
        obtain rfl : d = '\n' := Option.some.inj hhead
        simp at hrow
    | nil =>
        obtain ⟨d, name, rfl⟩ := List.exists_cons_of_ne_nil h.nonempty
        obtain rfl : d = '\n' := Option.some.inj hhead
        cases h.name '\n' List.mem_cons_self
  have hline : (lines text.toList)[rows.count '\n']? = some (run ++ [e]) := by
    rw [htext, getElem?_lines hclean hrows, List.append_assoc, List.cons_append,
      firstLine hrun he hcrlf]
  unfold MacroScript.wordAt
  rw [hline]
  dsimp only
  split_ifs with hbeyond
  · exact nofun
  · have hlength : (run ++ e :: tail).length + k = (run ++ [e]).length := by
      simp only [List.length_append, List.length_cons, List.length_nil] at hbeyond ⊢
      omega
    rw [hlength, wordAround_lineEnd run he]
    exact nofun

end IsWord

/-- Up to the position, the rows of the text are its lines. -/
def Text.HasRowsAsLinesUpTo (cs : List Char) (place : Position) : Prop :=
  ∃ before after, cs = before ++ after ∧
    Location.behind before none = ⟨place.line, place.column, none⟩ ∧ HasRowsAsLines before

theorem Text.hasRowsAsLinesUpTo_iff {cs before after : List Char} {place : Position}
    (hcs : cs = before ++ after)
    (hplace : Location.behind before none = ⟨place.line, place.column, none⟩) :
    HasRowsAsLinesUpTo cs place ↔ HasRowsAsLines before := by
  constructor
  · rintro ⟨before', after', rfl, hplace', hclean⟩
    obtain rfl := Location.eq_of_behind hcs (hplace'.trans hplace.symm)
    exact hclean
  · intro hclean
    exact ⟨before, after, hcs, hplace, hclean⟩

section Tokens

variable {text : List Char} {sourceName : Option String} {token : Token}

theorem Tiles.occupies {tokens : List Token} {start stop : Nat}
    (h : Tiles text sourceName start tokens stop) (htoken : token ∈ tokens) :
    ∃ start stop, token.Occupies text sourceName start stop := by
  induction h with
  | nil => cases htoken
  | cons hoccupies _ ih =>
      obtain rfl | htoken := List.mem_cons.mp htoken
      · exact ⟨_, _, hoccupies⟩
      · exact ih htoken

theorem Token.Occupies.isWord {start stop : Nat} (h : token.Occupies text sourceName start stop)
    (hkind : token.kind = .symbol) :
    ∃ before after, text = before ++ (token.text.toList ++ after) ∧
      token.location = .behind before sourceName ∧ IsWord before token.text.toList after := by
  obtain ⟨hle, hle'⟩ := h.inText
  have hspelled := h.spelled
  rw [hkind] at hspelled
  obtain ⟨hne, hall⟩ := hspelled.of_symbol
  obtain ⟨hbefore, hafter⟩ := h.maximal (hkind ▸ rfl)
  rw [hkind] at hbefore hafter
  refine ⟨text.take start, text.drop stop, ?_, h.location, hne, ?_, ?_, ?_⟩
  · have hdrop : text.drop stop = (text.drop start).drop (stop - start) := by
      rw [List.drop_drop, Nat.add_sub_cancel' hle]
    rw [hspelled.eq_of_symbol, List.extract_eq_take_drop, hdrop, List.take_append_drop,
      List.take_append_drop]
  · exact fun c hc => isNameChar_iff.mpr (hall c hc)
  · intro c hc
    exact Bool.eq_false_iff.mpr fun hname => hbefore c hc (isNameChar_iff.mp hname)
  · intro c hc
    rw [List.head?_drop] at hc
    exact Bool.eq_false_iff.mpr fun hname => hafter c hc (isNameChar_iff.mp hname)

theorem TokenStream.isWord_of_symbol {text : String} {sourceName : Option String} {token : Token}
    (htoken : token ∈ (ofCursor true (.ofText text sourceName)).tokens)
    (hkind : token.kind = .symbol) :
    ∃ before after, text.toList = before ++ (token.text.toList ++ after) ∧
      token.location = .behind before sourceName ∧ IsWord before token.text.toList after := by
  rw [(passing_eq_filter (.ofText text sourceName)).1, List.mem_filter] at htoken
  obtain ⟨stop, htiles, -⟩ := Cursor.tiles_onward text sourceName [] text.toList rfl (.zero _)
  obtain ⟨start, stop, hoccupies⟩ := htiles.occupies htoken.1
  exact hoccupies.isWord hkind

/-- Where a symbol is found in the editor, and where nothing is. -/
theorem wordAt_symbol {text : String} {sourceName : Option String} {token : Token}
    (htoken : token ∈ (TokenStream.ofCursor true (.ofText text sourceName)).tokens)
    (hkind : token.kind = .symbol) :
    (HasRowsAsLinesUpTo text.toList ⟨token.location.row, token.location.column⟩ →
      ∀ k ≤ token.text.length,
        wordAt text ⟨token.location.row, token.location.column + k⟩ = .ok (some token.text)) ∧
    (HasRowsAsLinesUpTo text.toList ⟨token.location.row, 0⟩ →
      ¬ HasRowsAsLinesUpTo text.toList ⟨token.location.row, token.location.column⟩ →
      ∀ k word, wordAt text ⟨token.location.row, token.location.column + k⟩ ≠ .ok (some word)) := by
  obtain ⟨before, after, htext, hlocation, hword⟩ := TokenStream.isWord_of_symbol htoken hkind
  obtain ⟨rows, row, rfl, hrows, hrow⟩ := exists_rows before
  have hplace := behind_rows hrows hrow none
  have hstart := behind_rows hrows List.not_mem_nil none
  rw [behind_rows hrows hrow] at hlocation
  rw [hlocation]
  dsimp only
  rw [hasRowsAsLinesUpTo_iff htext hplace]
  rw [List.append_nil] at hstart
  rw [List.append_assoc] at htext
  rw [hasRowsAsLinesUpTo_iff htext hstart]
  refine ⟨fun hclean k hk => ?_, fun hclean hdivided k word => ?_⟩
  · have hfound := hword.wordAt htext hclean hrows hrow hk
    rwa [String.ofList_toList] at hfound
  · refine hword.wordAt_of_divided htext hclean hrows hrow ?_ word
    by_contra hend
    apply hdivided
    apply hclean.append
    intro c hc
    by_contra hc'
    exact hend ⟨c, hc, Bool.not_eq_false _ ▸ hc'⟩

end Tokens

section Index

theorem Reader.tokens_suffix {nesting : Nesting} {reader : Reader} {stream more : TokenStream}
    {result : Expr} {after : Cursor} (h : reader.read nesting stream = .value result after more) :
    more.tokens <:+ stream.tokens := by
  induction stream generalizing reader with
  | finished stop =>
      simp only [read, finish] at h
      split at h
      · cases h
      · cases h
        exact List.suffix_refl _
      · cases h
  | unterminated => simp [read, breakOff] at h
  | token token behind rest ih =>
      simp only [read] at h
      split at h
      · exact (ih h).trans (List.suffix_cons token rest.tokens)
      · cases h
        exact List.suffix_cons token _
      · cases h
        exact List.suffix_refl _
      · cases h

/-- Every form begins with the tokens of a derivation, somewhere among the tokens of the text. -/
theorem Program.spans_of_mem (nesting : Nesting) (cursor : Cursor) (stream : TokenStream) :
    ∀ item ∈ (ofStream nesting cursor stream).items,
      (∃ (d : Derivation) (after : Cursor) (more : TokenStream),
        item.expr = d.expr ∧ d.Spans item.tokens after more) ∧
      item.tokens.tokens <:+ stream.tokens := by
  fun_induction ofStream nesting cursor stream with
  | case1 cursor stream e after more hread program ih =>
      intro item hitem
      rcases List.mem_cons.mp hitem with rfl | hitem
      · obtain ⟨d, rfl, hspans, -⟩ := Reader.read_start_eq_value_iff.mp hread
        exact ⟨⟨d, after, more, rfl, hspans⟩, List.suffix_refl _⟩
      · obtain ⟨hspans, hsuffix⟩ := ih item hitem
        exact ⟨hspans, hsuffix.trans (Reader.tokens_suffix hread)⟩
  | case2 | case3 => simp

theorem TopLevel.token_of_symbol? {item : TopLevel} {symbol : IndexedSymbol}
    (h : item.symbol? = some symbol) {d : Derivation} {after : Cursor} {more : TokenStream}
    (hexpr : item.expr = d.expr) (hspans : d.Spans item.tokens after more) :
    ∃ token ∈ item.tokens.tokens, token.kind = .symbol ∧ token.text = symbol.definition.name ∧
      token.location.row = symbol.row ∧ token.location.column = symbol.column := by
  obtain ⟨definition, hdefinition, h⟩ := Option.bind_eq_some_iff.mp h
  obtain ⟨place, hplace, rfl⟩ := Option.map_eq_some_iff.mp h
  have hname : ∃ head rest, item.expr = .call head (.var definition.name :: rest) := by
    obtain ⟨name, rest, he, rfl⟩ | ⟨name, rest, he, rfl⟩ :=
      Definition.shape_of_ofExpr? hdefinition
    · exact ⟨_, _, he⟩
    · exact ⟨_, _, he⟩
  obtain ⟨head, rest, he⟩ := hname
  obtain ⟨token, hget, hkind, htext⟩ := d.argumentToken hspans (hexpr ▸ he)
  unfold argumentLocation? at hplace
  rw [hget] at hplace
  dsimp only at hplace
  rw [if_pos hkind] at hplace
  obtain rfl := Option.some.inj hplace
  rw [TokenStream.get?_eq_tokens] at hget
  exact ⟨token, List.mem_of_getElem? hget, hkind, htext, rfl, rfl⟩

theorem Index.of_mem_symbolsOf {program : Program} {entry : String × IndexedSymbol}
    (h : entry ∈ (symbolsOf program).entries) :
    entry.2.definition.name = entry.1 ∧ ∃ item ∈ program.items, item.symbol? = some entry.2 := by
  have hadded : ∀ (added : List IndexedSymbol) (symbols : Table IndexedSymbol),
      entry ∈ (added.foldl addSymbol symbols).entries →
        entry ∈ symbols.entries ∨ entry.2.definition.name = entry.1 ∧ entry.2 ∈ added := by
    intro added
    induction added with
    | nil => exact fun _ hentry => .inl hentry
    | cons symbol added ih =>
        intro symbols hentry
        obtain hentry | ⟨hname, hmem⟩ := ih _ hentry
        · obtain rfl | hentry := Table.of_mem_insert hentry
          · exact .inr ⟨rfl, List.mem_cons_self⟩
          · exact .inl hentry
        · exact .inr ⟨hname, List.mem_cons_of_mem symbol hmem⟩
  obtain hentry | ⟨hname, hmem⟩ := hadded _ _ h
  · cases hentry
  · exact ⟨hname, List.mem_filterMap.mp hmem⟩

/-- Every entry of the index stands at a symbol that spells its name. -/
theorem Index.token_of_symbol {text : String} {limit : Int} {entry : String × IndexedSymbol}
    (h : entry ∈ (ofText text limit).symbols.entries) :
    ∃ token ∈ (TokenStream.ofCursor true (.ofText text none)).tokens,
      token.kind = .symbol ∧ token.text = entry.1 ∧
        token.location.row = entry.2.row ∧ token.location.column = entry.2.column := by
  obtain ⟨hname, item, hitem, hsymbol⟩ := of_mem_symbolsOf h
  obtain ⟨⟨d, after, more, hexpr, hspans⟩, hsuffix⟩ := Program.spans_of_mem _ _ _ item hitem
  obtain ⟨token, htoken, hkind, htext, hplace⟩ := TopLevel.token_of_symbol? hsymbol hexpr hspans
  exact ⟨token, hsuffix.mem htoken, hkind, htext.trans hname, hplace⟩

/-- A name that is pointed at in the index is found, and what the index says of it is shown. -/
theorem Document.hover_symbol {text : String} {limit : Int} {entry : String × IndexedSymbol}
    (h : entry ∈ (Index.ofText text limit).symbols.entries)
    (hclean : HasRowsAsLinesUpTo text.toList ⟨entry.2.row, entry.2.column⟩) {k : Nat}
    (hk : k ≤ entry.1.length) :
    wordAt text ⟨entry.2.row, entry.2.column + k⟩ = .ok (some entry.1) ∧
      (ofText text limit).hover ⟨entry.2.row, entry.2.column + k⟩ =
        .ok ((Index.ofText text limit).hoverText entry.1) := by
  obtain ⟨token, htoken, hkind, htext, hrow, hcolumn⟩ := Index.token_of_symbol h
  have hfound := (wordAt_symbol htoken hkind).1
  rw [htext, hrow, hcolumn] at hfound
  have hword := hfound hclean k hk
  refine ⟨hword, ?_⟩
  unfold hover ofText
  rw [hword]
  rfl

end Index

/-- The editor's word lookup agrees with the tokens of a text as long as the editor's lines are the
rows of the text: every symbol is found from every place within it and from either end, and so are
the names that the index records and the document's symbols publish, with what the index says of
them. On the first row that is divided into several lines nothing is found behind the division. -/
theorem Document.words_agree (limit : Int) (text : String) :
    (∀ sourceName, ∀ token ∈ (TokenStream.ofCursor true (.ofText text sourceName)).tokens,
      token.kind = .symbol →
        (HasRowsAsLinesUpTo text.toList ⟨token.location.row, token.location.column⟩ →
          ∀ k ≤ token.text.length,
            wordAt text ⟨token.location.row, token.location.column + k⟩ = .ok (some token.text)) ∧
        (HasRowsAsLinesUpTo text.toList ⟨token.location.row, 0⟩ →
          ¬ HasRowsAsLinesUpTo text.toList ⟨token.location.row, token.location.column⟩ →
          ∀ k word,
            wordAt text ⟨token.location.row, token.location.column + k⟩ ≠ .ok (some word))) ∧
    (∀ entry ∈ (Index.ofText text limit).symbols.entries,
      HasRowsAsLinesUpTo text.toList ⟨entry.2.row, entry.2.column⟩ → ∀ k ≤ entry.1.length,
        wordAt text ⟨entry.2.row, entry.2.column + k⟩ = .ok (some entry.1) ∧
          (ofText text limit).hover ⟨entry.2.row, entry.2.column + k⟩ =
            .ok ((Index.ofText text limit).hoverText entry.1)) ∧
    ∀ shown ∈ (Index.ofText text limit).outline,
      HasRowsAsLinesUpTo text.toList shown.range.start → ∀ k ≤ shown.name.length,
        (ofText text limit).hover ⟨shown.range.start.line, shown.range.start.column + k⟩ =
          .ok ((Index.ofText text limit).hoverText shown.name) := by
  refine ⟨fun sourceName token htoken hkind => wordAt_symbol htoken hkind,
    fun entry hentry hclean k hk => hover_symbol hentry hclean hk, ?_⟩
  intro shown hshown hclean k hk
  obtain ⟨entry, hentry, rfl⟩ := List.mem_map.mp hshown
  exact (hover_symbol hentry hclean hk).2

/-- A definition behind a newline, and a use of it behind a form feed. -/
def Document.dividedRow : List Char :=
  ['\n', 'l', 'e', 't', '(', 'x', ',', ' ', '1', ')', '\x0c', 'x']

/-- The name of the definition is found, the use is not. -/
theorem Document.words_agree_dividedRow :
    let text := String.ofList dividedRow
    (∀ k ≤ 1, wordAt text ⟨1, 4 + k⟩ = .ok (some "x")) ∧
      (∀ k ≤ 1, (ofText text).hover ⟨1, 4 + k⟩ = .ok ((Index.ofText text).hoverText "x")) ∧
      ∀ k word, wordAt text ⟨1, 10 + k⟩ ≠ .ok (some word) := by
  intro text
  obtain ⟨hwords, -, houtline⟩ := words_agree Settings.defaultParseDepth text
  have htokens : (TokenStream.ofCursor true (.ofText text none)).tokens =
      [⟨.symbol, "let", ⟨1, 0, none⟩⟩, ⟨.openParen, "(", ⟨1, 3, none⟩⟩,
        ⟨.symbol, "x", ⟨1, 4, none⟩⟩, ⟨.comma, ",", ⟨1, 5, none⟩⟩, ⟨.number, "1", ⟨1, 7, none⟩⟩,
        ⟨.closeParen, ")", ⟨1, 8, none⟩⟩, ⟨.symbol, "x", ⟨1, 10, none⟩⟩] := by cbv
  have houtlined : (Index.ofText text).outline = [⟨"x", "x", .var, .onLine 1 4 1⟩] := by cbv
  have hchars : text.toList = dividedRow := String.toList_ofList
  rw [hchars] at hwords houtline
  have hclean : HasRowsAsLinesUpTo dividedRow ⟨1, 4⟩ :=
    ⟨['\n', 'l', 'e', 't', '('], _, rfl, rfl, .newline (.append .nil (by simp [isLineEnd]))⟩
  have hstart : HasRowsAsLinesUpTo dividedRow ⟨1, 0⟩ := ⟨['\n'], _, rfl, rfl, .newline .nil⟩
  have hdivided : ¬ HasRowsAsLinesUpTo dividedRow ⟨1, 10⟩ := by
    have hsplit : dividedRow = dividedRow.take 11 ++ ['x'] := rfl
    rw [hasRowsAsLinesUpTo_iff hsplit rfl]
    intro h
    obtain h | ⟨h, -⟩ := h (dividedRow.take 10) '\x0c' [] rfl (by decide)
    · cases h
    · cases h
  refine ⟨?_, ?_, ?_⟩
  · refine (hwords none ⟨.symbol, "x", ⟨1, 4, none⟩⟩ ?_ rfl).1 hclean
    simp [htokens]
  · refine houtline ⟨"x", "x", .var, .onLine 1 4 1⟩ ?_ hclean
    simp [houtlined]
  · refine (hwords none ⟨.symbol, "x", ⟨1, 10, none⟩⟩ ?_ rfl).2 hstart hdivided
    simp [htokens]

end MacroScript
