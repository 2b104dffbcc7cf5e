import MacroScript.Proofs.Reading.Program
import MacroScript.Proofs.Reading.Recognition

/-!
# Written forms read back

The source text of a tree begins a derivation of the tree wherever it stands in
a text, as long as no run goes on behind it. Reading builds only trees whose
names are spelled like symbols and whose strings contain no quote, so what was
read can be written and read again, expression by expression. A string that
contains one kind of quote has a written form, but that form is read as another
string.
-/
namespace MacroScript

namespace Expr

/-- The name of a variable or of a function is spelled like a symbol. -/
def NameSpelled : Expr → Prop
  | var name | call name _ => name.toList ≠ [] ∧ ∀ c ∈ name.toList, TokenKind.ofChar c = .symbol
  | void | int _ | string _ => True

/-- A string contains no quote of either kind. -/
def Unquoted : Expr → Prop
  | string text => ∀ c ∈ text.toList, TokenKind.ofChar c ≠ .string
  | void | int _ | var _ | call _ _ => True

/-- A string does not contain both kinds of quote. -/
def Quotable : Expr → Prop
  | string text => '"' ∉ text.toList ∨ '\'' ∉ text.toList
  | void | int _ | var _ | call _ _ => True

theorem exists_writtenString_iff (text : String) :
    (∃ written, writtenString text = .ok written) ↔ Quotable (string text) := by
  unfold writtenString Quotable
  split_ifs with hdouble hsingle <;> simp_all

mutual

/-- Only a string with both kinds of quote has no written form. -/
theorem exists_written_iff : (e : Expr) → ((∃ text, e.written = .ok text) ↔ e.Every Quotable)
  | void | int _ | var _ => by simp [written, Every, Quotable]
  | string text => exists_writtenString_iff text
  | call name args => by
      simp only [Every, Quotable, true_and]
      rw [← exists_writtenAll_iff args]
      cases h : writtenAll args <;> simp [written, h, Except.map]

theorem exists_writtenAll_iff :
    (es : List Expr) → ((∃ text, writtenAll es = .ok text) ↔ EveryIn Quotable es)
  | [] => by simp [writtenAll, EveryIn]
  | [e] => by simp [writtenAll, EveryIn, exists_written_iff e]
  | e :: e' :: es => by
      rw [EveryIn, ← exists_written_iff e, ← exists_writtenAll_iff (e' :: es)]
      cases h : e.written <;> cases h' : writtenAll (e' :: es) <;>
        simp [writtenAll, h, h', Except.bind, Except.map]

end

theorem toList_writtenString {text written : String} (h : Unquoted (string text))
    (hwritten : writtenString text = .ok written) :
    written.toList = '"' :: text.toList ++ ['"'] := by
  have hdouble : '"' ∉ text.toList := fun hmem => h _ hmem (by decide)
  unfold writtenString at hwritten
  rw [if_pos (by simpa using hdouble)] at hwritten
  simp [← Except.ok.inj hwritten, toString]

theorem toList_written_call {name written : String} {args : List Expr}
    (h : (call name args).written = .ok written) :
    ∃ inside, writtenAll args = .ok inside ∧
      written.toList = name.toList ++ (['('] ++ (inside.toList ++ [')'])) := by
  cases hargs : writtenAll args with
  | error problem => simp [Expr.written, hargs, Except.map] at h
  | ok inside =>
      simp only [Expr.written, hargs, Except.map, Except.ok.injEq] at h
      exact ⟨inside, rfl, by simp [← h, toString]⟩

theorem toList_writtenAll {e e' : Expr} {es : List Expr} {written : String}
    (h : writtenAll (e :: e' :: es) = .ok written) :
    ∃ first others, e.written = .ok first ∧ writtenAll (e' :: es) = .ok others ∧
      written.toList = first.toList ++ ([','] ++ ([' '] ++ others.toList)) := by
  cases hfirst : e.written with
  | error problem => simp [writtenAll, hfirst, Except.bind] at h
  | ok first =>
      cases hothers : writtenAll (e' :: es) with
      | error problem => simp [writtenAll, hfirst, hothers, Except.bind, Except.map] at h
      | ok others =>
          simp only [writtenAll, hfirst, hothers, Except.bind, Except.map, Except.ok.injEq] at h
          exact ⟨first, others, rfl, rfl, by simp [← h, toString]⟩

end Expr

open Cursor MacroScript.Expr

section
variable {cursor after : Cursor}

theorem spans_int {value : UInt64} (h : cursor.Reaches (toString value.toNat).toList after)
    (hstop : ∀ kind : TokenKind, kind.StopsAt after.rest) :
    ∃ d : Derivation, d.expr = .int value ∧
      d.Spans (.ofCursor true cursor) after (.ofCursor true after) := by
  simp only [Nat.toString_eq_ofList_toDigits, String.toList_ofList] at h
  have hdigits : TokenKind.Spelling .number (Nat.toDigits 10 value.toNat)
      (Nat.toDigits 10 value.toNat) :=
    .run rfl Nat.toDigits_ne_nil fun c hc =>
      TokenKind.ofChar_of_isDigit (Nat.isDigit_of_mem_toDigits (by decide) (by decide) hc)
  obtain ⟨location, hstream⟩ := h.token hdigits (by decide) (hstop _)
  have hlength : (Nat.toDigits 10 value.toNat).length ≤ 20 := by
    rw [Nat.length_toDigits_le_iff (by decide) (by decide)]
    exact Nat.lt_of_lt_of_le value.toNat_lt (by decide)
  refine ⟨.number _, ?_, hstream, rfl, by simpa using hlength, ?_⟩
  · simp [Derivation.expr, Token.digitsValue, Nat.ofDigitChars_ten_toDigits]
  · simp only [Token.digitsValue, String.toList_ofList, Nat.ofDigitChars_ten_toDigits]
    exact Nat.le_pred_of_lt value.toNat_lt

theorem head_and_opening {name : String} {more : List Char} (hname : NameSpelled (.var name))
    (h : cursor.Reaches (name.toList ++ (['('] ++ more)) after) :
    ∃ head behindHead opening inside, TokenStream.ofCursor true cursor =
        .token head behindHead (.token opening inside (.ofCursor true inside)) ∧
      head.kind = .symbol ∧ head.text = name ∧ opening.kind = .openParen ∧
      inside.Reaches more after := by
  obtain ⟨behindHead, hhead, htail, hrest⟩ := h.append
  obtain ⟨inside, hopening, hmore, _⟩ := htail.append
  obtain ⟨location, hstream⟩ := hhead.token (.run rfl hname.1 hname.2) (by decide)
    (hrest ▸ TokenKind.stopsAt_cons _ (by decide))
  obtain ⟨location', hstream'⟩ := hopening.single .openParen rfl rfl (by decide)
  rw [hstream'] at hstream
  exact ⟨_, _, _, inside, hstream, rfl, by simp, rfl, hmore⟩

theorem spans_emptyCall {name : String} (hname : NameSpelled (.var name))
    (h : cursor.Reaches (name.toList ++ (['('] ++ [')'])) after) :
    ∃ d : Derivation, d.expr = .call name [] ∧
      d.Spans (.ofCursor true cursor) after (.ofCursor true after) := by
  obtain ⟨head, behindHead, opening, inside, hstream, hhead, htext, hopening, hclose⟩ :=
    head_and_opening hname h
  obtain ⟨location, hclosing⟩ := hclose.single .closeParen rfl rfl (by decide)
  rw [hclosing] at hstream
  exact ⟨.emptyCall _ _ _, by rw [Derivation.expr, htext], _, _, hstream, hhead, hopening, rfl⟩

end

mutual

/-- Where the written form of a tree stands, a derivation of the tree begins. -/
theorem spans_written : (e : Expr) → e.Every NameSpelled → e.Every Unquoted →
    {text : String} → e.written = .ok text → (cursor after : Cursor) →
    cursor.Reaches text.toList after → (∀ kind : TokenKind, kind.StopsAt after.rest) →
    (e.asVar? ≠ none → (TokenStream.ofCursor true after).EndsName) →
    ∃ d : Derivation, d.expr = e.asWritten ∧
      d.Spans (.ofCursor true cursor) after (.ofCursor true after)
  | .void, _, _, text, hwritten, cursor, after, h, _, _ => by
      cases hwritten
      have hdo : NameSpelled (.var "do") := ⟨by decide, by simp; decide⟩
      exact spans_emptyCall hdo h
  | .int value, _, _, text, hwritten, cursor, after, h, hstop, _ => by
      cases hwritten
      exact spans_int h hstop
  | .string content, _, hquotes, text, hwritten, cursor, after, h, hstop, _ => by
      rw [toList_writtenString hquotes hwritten] at h
      obtain ⟨location, hstream⟩ := h.token (.quoted (by decide) (by decide) hquotes) (by decide)
        (hstop _)
      exact ⟨.string _, by simp [Derivation.expr, asWritten], hstream, rfl⟩
  | .var name, hname, _, text, hwritten, cursor, after, h, hstop, hends => by
      cases hwritten
      obtain ⟨location, hstream⟩ := h.token (.run rfl hname.1 hname.2) (by decide) (hstop _)
      exact ⟨.name _, by simp [Derivation.expr, asWritten], hstream, rfl, hends (by simp [asVar?])⟩
  | .call name [], hname, _, text, hwritten, cursor, after, h, _, _ => by
      obtain ⟨inside, hinside, htext⟩ := toList_written_call hwritten
      cases hinside
      rw [htext] at h
      exact spans_emptyCall hname.1 h
  | .call name (e :: es), hname, hquotes, text, hwritten, cursor, after, h, _, _ => by
      obtain ⟨inside, hinside, htext⟩ := toList_written_call hwritten
      rw [htext] at h
      obtain ⟨head, behindHead, opening, start, hstream, hhead, hname', hopening, hargs⟩ :=
        head_and_opening hname.1 h
      obtain ⟨first, others, hexprs, behindFirst, rest, hfirst, hothers⟩ :=
        spans_writtenAll (e :: es) (by simp) hname.2 hquotes.2 hinside start after hargs
      refine ⟨.call head opening first others, ?_, _, _, _, _, _, hstream, hhead, hopening,
        hfirst, hothers⟩
      rw [Derivation.expr, hexprs, hname', asWritten]

/-- The written forms of arguments, up to the closing parenthesis. -/
theorem spans_writtenAll : (es : List Expr) → es ≠ [] → EveryIn NameSpelled es →
    EveryIn Unquoted es → {text : String} → writtenAll es = .ok text → (cursor after : Cursor) →
    cursor.Reaches (text.toList ++ [')']) after →
    ∃ first : Derivation, ∃ others : Separated, first.expr :: others.exprs = asWrittenIn es ∧
      ∃ behindFirst rest, first.Spans (.ofCursor true cursor) behindFirst rest ∧
        others.Spans rest after (.ofCursor true after)
  | [], hne, _, _, _, _, _, _, _ => absurd rfl hne
  | [e], _, hname, hquotes, text, hwritten, cursor, after, h => by
      obtain ⟨middle, harg, hclose, hrest⟩ := h.append
      obtain ⟨location, hstream⟩ := hclose.single .closeParen rfl rfl (by decide)
      obtain ⟨first, hexpr, hspans⟩ := spans_written e hname.1 hquotes.1 hwritten cursor middle harg
        (fun kind => hrest ▸ TokenKind.stopsAt_single kind rfl)
        (fun _ => by simp [hstream, TokenStream.EndsName])
      exact ⟨first, .close _, by rw [hexpr]; rfl, middle, _, hspans, hstream, rfl⟩
  | e :: e' :: es, _, hname, hquotes, text, hwritten, cursor, after, h => by
      obtain ⟨text', texts, hfirst, hothers, htext⟩ := toList_writtenAll hwritten
      rw [htext, List.append_assoc, List.append_assoc, List.append_assoc] at h
      obtain ⟨middle, harg, htail, hrest⟩ := h.append
      obtain ⟨behindComma, hcomma, htail, _⟩ := htail.append
      obtain ⟨location, hstream⟩ := hcomma.single .comma rfl rfl (by decide)
      obtain ⟨first, hexpr, hspans⟩ := spans_written e hname.1 hquotes.1 hfirst cursor middle harg
        (fun kind => hrest ▸ TokenKind.stopsAt_single kind rfl)
        (fun _ => by simp [hstream, TokenStream.EndsName])
      obtain ⟨next, others, hexprs, behindNext, rest, hnext, hspans'⟩ :=
        spans_writtenAll (e' :: es) (by simp) hname.2 hquotes.2 hothers behindComma after
          (htail.skip (by decide))
      exact ⟨first, .comma _ next others, by rw [hexpr, Separated.exprs, hexprs]; rfl, middle, _,
        hspans, _, _, _, _, hstream, rfl, hnext, hspans'⟩

end

/-- What reading can build at one place of a tree. -/
def Expr.Spelled (e : Expr) : Prop := e ≠ .void ∧ e.NameSpelled ∧ e.Unquoted

theorem Expr.quotable_of_unquoted {e : Expr} (h : e.Unquoted) : e.Quotable := by
  cases e with
  | string text => exact .inl fun hmem => h _ hmem (by decide)
  | _ => trivial

theorem TokenStream.spelling_of_ofCursor {cursor after : Cursor} {token : Token}
    {more : TokenStream} (h : ofCursor true cursor = .token token after more) :
    ∃ chars, token.kind.Spelling token.text.toList chars := by
  obtain ⟨⟨_, chars, _, _, hspell, _⟩, _⟩ := endsAt_of_ofCursor h
  exact ⟨chars, hspell⟩

theorem Token.text_spelled {token : Token} {cursor after : Cursor} {more : TokenStream}
    (h : TokenStream.ofCursor true cursor = .token token after more)
    (hkind : token.kind = .symbol) :
    token.text.toList ≠ [] ∧ ∀ c ∈ token.text.toList, TokenKind.ofChar c = .symbol := by
  obtain ⟨chars, hspell⟩ := TokenStream.spelling_of_ofCursor h
  rw [hkind] at hspell
  exact hspell.of_symbol

mutual

theorem Derivation.spelled : (d : Derivation) → {cursor after : Cursor} → {more : TokenStream} →
    d.Spans (.ofCursor true cursor) after more → d.expr.Every Spelled
  | .number token, _, _, _, _ => ⟨by simp, trivial, trivial⟩
  | .string token, cursor, after, more, h => by
      obtain ⟨chars, hspell⟩ := TokenStream.spelling_of_ofCursor h.1
      rw [h.2] at hspell
      exact ⟨by simp, trivial, hspell.of_string⟩
  | .name token, cursor, after, more, h => ⟨by simp, Token.text_spelled h.1 h.2.1, trivial⟩
  | .emptyCall head opening closing, cursor, after, more, h => by
      obtain ⟨a, b, hstream, hhead, _⟩ := h
      exact ⟨⟨by simp, Token.text_spelled hstream hhead, trivial⟩, trivial⟩
  | .call head opening first others, cursor, after, more, h => by
      obtain ⟨a, b, inside, c, rest, hstream, hhead, _, hfirst, hothers⟩ := h
      obtain ⟨_, htail⟩ := TokenStream.endsAt_of_ofCursor hstream
      obtain ⟨_, rfl⟩ := TokenStream.endsAt_of_ofCursor htail.symm
      obtain ⟨_, rfl⟩ := first.last_endsAt hfirst
      exact ⟨⟨by simp, Token.text_spelled hstream hhead, trivial⟩, first.spelled hfirst,
        others.spelled hothers⟩

theorem Separated.spelled : (s : Separated) → {cursor after : Cursor} → {more : TokenStream} →
    s.Spans (.ofCursor true cursor) after more → EveryIn Spelled s.exprs
  | .close _, _, _, _, _ => trivial
  | .comma separator next others, cursor, after, more, h => by
      obtain ⟨a, inside, b, rest, hstream, _, hnext, hothers⟩ := h
      obtain ⟨_, rfl⟩ := TokenStream.endsAt_of_ofCursor hstream
      obtain ⟨_, rfl⟩ := next.last_endsAt hnext
      exact ⟨next.spelled hnext, others.spelled hothers⟩

end

/-- A written form at the end of a text or before more text is read as the tree it stands for. -/
theorem read_written {nesting : Nesting} {e : Expr} {text : String} {cursor after : Cursor}
    (hname : e.Every NameSpelled) (hquotes : e.Every Unquoted) (hwritten : e.written = .ok text)
    (hallows : nesting.Allows 0 e.asWritten) (h : cursor.Reaches text.toList after)
    (hstop : ∀ kind : TokenKind, kind.StopsAt after.rest)
    (hends : e.asVar? ≠ none → (TokenStream.ofCursor true after).EndsName) :
    cursor.readExpr nesting = .value e.asWritten after (.ofCursor true after) := by
  obtain ⟨d, hexpr, hspans⟩ := spans_written e hname hquotes hwritten cursor after h hstop hends
  exact Reader.read_start_eq_value_iff.mpr ⟨d, hexpr, hspans, hallows⟩

/-- The written form of a tree without the unit is read as the tree exactly if no string of the
tree contains a quote. A quote of one kind is enough to lose the tree, although the form exists. -/
theorem Expr.readExpr_written_iff (limit : Int) (sourceName : Option String) (e : Expr)
    (hvoid : e.Every (· ≠ void)) (hname : e.Every NameSpelled) (hnesting : e.nesting ≤ limit) :
    ((∃ text, e.written = .ok text) ↔ e.Every Quotable) ∧
    ∀ text, e.written = .ok text →
      ((∃ e' after more, (Cursor.ofText text sourceName).readExpr ⟨limit, 0⟩ =
          .value e' after more ∧ e'.eql e = true) ↔ e.Every Unquoted) := by
  refine ⟨exists_written_iff e, fun text hwritten => ⟨?_, fun hquotes => ?_⟩⟩
  · rintro ⟨e', after, more, hread, heql⟩
    obtain ⟨d, hexpr, hspans, _⟩ := Reader.read_start_eq_value_iff.mp hread
    have hspelled := d.spelled hspans
    rw [hexpr, eq_of_eql heql] at hspelled
    exact hspelled.imp fun _ h => h.2.2
  · let cursor := Cursor.ofText text sourceName
    have hfinish := (cursor.past cursor.rest []).reaches_self.finished (by simp)
    have hself := asWritten_eq_self hvoid
    refine ⟨e, _, _, hself ▸ read_written hname hquotes hwritten ?_ cursor.reaches_rest ?_ ?_,
      eql_self e⟩
    · rw [hself]
      simp only [Nesting.Allows]
      omega
    · simp [TokenKind.stopsAt_nil]
    · intro _
      rw [hfinish]
      trivial

/-- An apostrophe inside double quotes ends the string. -/
theorem Expr.readExpr_written_iff_apostrophe :
    let e : Expr := .call "f" [.string "it's", .var "x"]
    e.Every (· ≠ void) ∧ e.Every NameSpelled ∧ (e.nesting : Int) ≤ 1 ∧
      e.written = .ok "f(\"it's\", x)" ∧
      ¬ ∃ e' after more, (Cursor.ofText "f(\"it's\", x)" none).readExpr ⟨1, 0⟩ =
        .value e' after more ∧ e'.eql e = true := by
  intro e
  have hvoid : e.Every (· ≠ void) := by simp [e, Every, EveryIn]
  have hname : e.Every NameSpelled :=
    ⟨⟨by decide, by simp; decide⟩, trivial, ⟨by decide, by simp; decide⟩, trivial⟩
  have hnesting : (e.nesting : Int) ≤ 1 := by decide
  have hwritten : e.written = .ok "f(\"it's\", x)" := by cbv
  refine ⟨hvoid, hname, hnesting, hwritten, fun h => ?_⟩
  have hquotes := ((readExpr_written_iff 1 none e hvoid hname hnesting).2 _ hwritten).mp h
  exact hquotes.2.1 '\'' (by decide) (by decide)

namespace Program
variable {nesting : Nesting} {cursor after : Cursor} {stream more : TokenStream} {e : Expr}

theorem endsName_of_asVar {d : Derivation} (h : d.Spans stream after more)
    (hvar : d.expr.asVar? ≠ none) : more.EndsName := by
  cases d with
  | name token => exact h.2.2
  | _ => simp [Derivation.expr, asVar?] at hvar

/-- The expressions of a text are spelled, they are within the limit, and only the last one of them
may be a name. -/
theorem exprs_ofStream (nesting : Nesting) (cursor : Cursor) :
    (∀ e ∈ (ofStream nesting cursor (.ofCursor true cursor)).exprs,
        e.Every Spelled ∧ nesting.Allows 0 e) ∧
      ∀ e ∈ (ofStream nesting cursor (.ofCursor true cursor)).exprs.dropLast, e.asVar? = none := by
  induction hn : (TokenStream.ofCursor true cursor).length using Nat.strong_induction_on
    generalizing cursor with
  | _ n ih =>
      cases hread : (Reader.start cursor).read nesting (.ofCursor true cursor) with
      | nothing => simp [exprs_of_nothing hread]
      | failure => simp [exprs_of_failure hread]
      | value e after more =>
          obtain ⟨d, rfl, hspans, hallows⟩ := Reader.read_start_eq_value_iff.mp hread
          have hshorter := d.length_lt hspans
          obtain ⟨_, rfl⟩ := d.last_endsAt hspans
          obtain ⟨hall, hlast⟩ := ih _ (hn ▸ hshorter) after rfl
          rw [exprs_of_value hread]
          refine ⟨?_, ?_⟩
          · intro e he
            rcases List.mem_cons.mp he with rfl | he
            · exact ⟨d.spelled hspans, hallows⟩
            · exact hall e he
          · intro e he
            by_cases hmore : (ofStream nesting after (.ofCursor true after)).exprs = []
            · simp [hmore] at he
            · rw [List.dropLast_cons_of_ne_nil hmore] at he
              rcases List.mem_cons.mp he with rfl | he
              · by_contra hvar
                exact hmore (exprs_of_endsName (endsName_of_asVar hspans hvar))
              · exact hlast e he

theorem ofStream_of_written {text : String} (hspelled : e.Every Spelled)
    (hallows : nesting.Allows 0 e) (hwritten : e.written = .ok text)
    (h : cursor.Reaches text.toList after) (hstop : ∀ kind : TokenKind, kind.StopsAt after.rest)
    (hends : e.asVar? ≠ none → (TokenStream.ofCursor true after).EndsName) :
    (ofStream nesting cursor (.ofCursor true cursor)).exprs =
        e :: (ofStream nesting after (.ofCursor true after)).exprs ∧
      (ofStream nesting cursor (.ofCursor true cursor)).error =
        (ofStream nesting after (.ofCursor true after)).error := by
  have hself := asWritten_eq_self (hspelled.imp fun _ h => h.1)
  have hread := read_written (hspelled.imp fun _ h => h.2.1) (hspelled.imp fun _ h => h.2.2)
    hwritten (hself.symm ▸ hallows) h hstop hends
  rw [hself, Cursor.readExpr] at hread
  exact ⟨exprs_of_value hread, by rw [error_ofStream, hread, Reading.errorOnward]⟩

theorem exists_map_written {es : List Expr} (h : ∀ e ∈ es, e.Every Spelled) :
    ∃ texts : List String, es.map written = texts.map .ok := by
  induction es with
  | nil => exact ⟨[], rfl⟩
  | cons e es ih =>
      obtain ⟨text, htext⟩ := (exists_written_iff e).mpr
        ((h e (by simp)).imp fun _ hspelled => quotable_of_unquoted hspelled.2.2)
      obtain ⟨texts, htexts⟩ := ih fun e he => h e (.tail _ he)
      exact ⟨text :: texts, by rw [List.map_cons, List.map_cons, htext, htexts]⟩

theorem ofStream_written {es : List Expr} {texts : List String}
    (hwritten : es.map written = texts.map .ok)
    (hall : ∀ e ∈ es, e.Every Spelled ∧ nesting.Allows 0 e)
    (hlast : ∀ e ∈ es.dropLast, e.asVar? = none)
    (h : cursor.Reaches ([' '].intercalate (texts.map String.toList)) after)
    (hend : after.rest = []) :
    (ofStream nesting cursor (.ofCursor true cursor)).exprs = es ∧
      (ofStream nesting cursor (.ofCursor true cursor)).error = none := by
  induction es generalizing texts cursor with
  | nil =>
      obtain rfl : texts = [] := by simpa using hwritten.symm
      rw [h.finished hend]
      exact ⟨exprs_of_nothing rfl, by rw [error_ofStream]; rfl⟩
  | cons e es ih =>
      cases texts with
      | nil => simp at hwritten
      | cons text texts =>
          simp only [List.map_cons, List.cons.injEq] at hwritten
          obtain ⟨hfirst, hothers⟩ := hwritten
          obtain ⟨hspelled, hallows⟩ := hall e (by simp)
          cases es with
          | nil =>
              obtain rfl : texts = [] := by simpa using hothers.symm
              have hfinish := after.reaches_self.finished hend
              obtain ⟨hexprs, herror⟩ := ofStream_of_written hspelled hallows hfirst
                (by simpa using h) (by simp [hend, TokenKind.stopsAt_nil])
                fun _ => by rw [hfinish]; trivial
              refine ⟨by rw [hexprs, hfinish, exprs_of_nothing rfl], ?_⟩
              rw [herror, hfinish, error_ofStream]
              rfl
          | cons e' es =>
              cases texts with
              | nil => simp at hothers
              | cons text' texts =>
                  rw [List.map_cons, List.map_cons, List.intercalate_cons_cons,
                    List.append_assoc] at h
                  obtain ⟨middle, htext, htail, hrest⟩ := h.append
                  obtain ⟨hexprs, herror⟩ := ofStream_of_written hspelled hallows hfirst htext
                    (fun kind => hrest ▸ TokenKind.stopsAt_single kind rfl)
                    fun hvar => absurd (hlast e (by simp)) hvar
                  obtain ⟨hexprs', herror'⟩ := ih hothers (fun e he => hall e (.tail _ he))
                    (fun e he => hlast e (.tail _ he)) (htail.skip (by decide))
                  exact ⟨by rw [hexprs, hexprs'], by rw [herror, herror']⟩

/-- What was read of a text is written and read again, to the end and in the same order. -/
theorem reread (limit : Int) (source : String) (sourceName sourceName' : Option String) :
    ∃ texts : List String,
      (ofText limit source sourceName).exprs.map written = texts.map .ok ∧
      (ofText limit (" ".intercalate texts) sourceName').exprs =
        (ofText limit source sourceName).exprs ∧
      (ofText limit (" ".intercalate texts) sourceName').error = none := by
  obtain ⟨hall, hlast⟩ := exprs_ofStream ⟨limit, 0⟩ (Cursor.ofText source sourceName)
  obtain ⟨texts, hwritten⟩ := exists_map_written fun e he => (hall e he).1
  have hreach := (Cursor.ofText (" ".intercalate texts) sourceName').reaches_rest
  have hrest : (Cursor.ofText (" ".intercalate texts) sourceName').rest =
      [' '].intercalate (texts.map String.toList) := by
    simp [Cursor.ofText, String.toList_intercalate]
  rw [hrest] at hreach
  exact ⟨texts, hwritten, ofStream_written hwritten hall hlast hreach (Cursor.past_rest ..)⟩

end Program

end MacroScript
