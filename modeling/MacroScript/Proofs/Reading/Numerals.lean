import MacroScript.Proofs.Reading.Recognition

/-!
# Numerals and the calls around them

A row of digits is read as the integer of its value if the value fits into 64
bits and there are at most twenty digits. Otherwise it is an overflow, reported
where the digits begin. The two conditions only part over leading zeros: without
them, a value that fits never takes more than twenty digits. The same holds
inside any calls that the nesting limit allows, whatever their other arguments
are. The calls are kept as frames, outermost first, so that what is read before
the digits and what is read behind them can be followed separately.
-/
namespace MacroScript

namespace Token

/-- Without a leading zero, each digit behind the first makes the value ten times larger. -/
theorem pow_le_digitsValue {c : Char} (hdigit : c.isDigit = true) (hc : c ≠ '0')
    (digits : List Char) : 10 ^ digits.length ≤ digitsValue (c :: digits) := by
  have hpos : 1 ≤ c.toNat - '0'.toNat := by
    have hle : 48 ≤ c.toNat := by
      simp only [Char.isDigit, Bool.and_eq_true, decide_eq_true_eq] at hdigit
      exact hdigit.1
    have hne : c.toNat ≠ 48 := fun h => hc (Char.toNat_inj.mp h)
    have hzero : '0'.toNat = 48 := rfl
    omega
  unfold digitsValue
  rw [Nat.ofDigitChars_cons, Nat.ofDigitChars_eq_ofDigitChars_zero]
  calc 10 ^ digits.length
      ≤ 10 ^ digits.length * (10 * 0 + (c.toNat - '0'.toNat)) := by
        refine Nat.le_mul_of_pos_right _ ?_
        omega
    _ ≤ _ := Nat.le_add_right ..

theorem length_le_of_fits {digits : List Char} (hdigits : ∀ c ∈ digits, c.isDigit = true)
    (hhead : digits.head? ≠ some '0') (hfits : digitsValue digits < 2 ^ 64) :
    digits.length ≤ 20 := by
  cases digits with
  | nil => exact Nat.zero_le 20
  | cons c digits =>
      have hc : c ≠ '0' := fun h => hhead (congrArg some h)
      have hpow : 10 ^ digits.length < 10 ^ 20 :=
        calc 10 ^ digits.length
            ≤ digitsValue (c :: digits) :=
              pow_le_digitsValue (hdigits c List.mem_cons_self) hc digits
          _ < 2 ^ 64 := hfits
          _ < 10 ^ 20 := by decide
      exact (Nat.pow_lt_pow_iff_right (by decide)).mp hpow

variable {digits : List Char} {location : Location}

theorem atom_digits {v : UInt64} (hlength : digits.length ≤ 20)
    (hv : v.toNat = digitsValue digits) :
    atom ⟨.number, String.ofList digits, location⟩ = .ok (.int v) := by
  have hvalue : digitsValue digits ≤ 2 ^ 64 - 1 := hv ▸ Nat.le_pred_of_lt v.toNat_lt
  have hself : v.toNat.toUInt64 = v := UInt64.ofNat_toNat
  rw [atom_number rfl (by simpa using hlength) (by simpa using hvalue), String.toList_ofList, ← hv,
    hself]

theorem atom_overflow (h : 2 ^ 64 ≤ digitsValue digits ∨ 20 < digits.length) :
    atom ⟨.number, String.ofList digits, location⟩ = .error ⟨location, .intOverflow⟩ := by
  have hnot : ¬ (digits.length ≤ maxDigits ∧ digitsValue digits < Expr.intBound) := by
    rintro ⟨hlength, hvalue⟩
    rcases h with h | h
    · exact absurd hvalue (Nat.not_lt.mpr h)
    · exact absurd hlength (Nat.not_le.mpr h)
  simp only [atom, String.toList_ofList]
  rw [if_neg hnot]

end Token

theorem TokenStream.ofCursor_digits {place : Cursor} {digits behind : List Char}
    (hne : digits ≠ []) (hdigits : ∀ c ∈ digits, c.isDigit = true)
    (hrest : place.rest = digits ++ behind) (hstop : TokenKind.number.StopsAt behind) :
    ofCursor true place = .token ⟨.number, String.ofList digits, place.location⟩
      (place.past digits behind) (ofCursor true (place.past digits behind)) := by
  have hspell : TokenKind.Spelling .number digits digits :=
    .run rfl hne fun c hc => TokenKind.ofChar_of_isDigit (hdigits c hc)
  have hgap : ∀ c ∈ ([] : List Char), TokenKind.ofChar c = .illegal := nofun
  have hstream := ofCursor_past_token place [] hgap (by decide) hspell hstop
  rw [List.nil_append, ← hrest] at hstream
  exact hstream

/-- A call around one of its arguments: the arguments before it with the commas behind them, and
what stands behind it. -/
structure CallFrame where
  head : Token
  opening : Token
  before : List (Derivation × Token)
  behind : Separated

namespace CallFrame

open Reader

/-- The call with an expression as the argument. -/
def fill (frame : CallFrame) (e : Expr) : Expr :=
  .call frame.head.text (frame.before.map (fun d => d.1.expr) ++ e :: frame.behind.exprs)

/-- Calls around one another, outermost first, with an expression as the innermost argument. -/
def fillAll (frames : List CallFrame) (e : Expr) : Expr := frames.foldr fill e

/-- The call as the reader keeps it where the argument is due. -/
def openCall (frame : CallFrame) : OpenCall :=
  ⟨frame.head.text, (frame.before.map fun d => d.1.expr).reverse, true⟩

/-- A stream begins with arguments, each with its comma behind it, and goes on with another
stream. -/
def Lists : List (Derivation × Token) → TokenStream → TokenStream → Prop
  | [], stream, next => next = stream
  | (d, separator) :: before, stream, next =>
      ∃ after behindComma more, d.Spans stream after (.token separator behindComma more) ∧
        separator.kind = .comma ∧ Lists before more next

/-- A stream begins with all that stands before the innermost argument of the calls, and goes on
with another stream. -/
def Opens : List CallFrame → TokenStream → TokenStream → Prop
  | [], stream, inside => inside = stream
  | frame :: frames, stream, inside =>
      ∃ behindHead behindOpening args next,
        stream = .token frame.head behindHead (.token frame.opening behindOpening args) ∧
        frame.head.kind = .symbol ∧ frame.opening.kind = .openParen ∧
        Lists frame.before args next ∧ Opens frames next inside

/-- What stands behind the innermost argument leads to the end of the outermost call. -/
def Closes : List CallFrame → Cursor → TokenStream → Cursor → TokenStream → Prop
  | [], stop, stream, after, more => after = stop ∧ more = stream
  | frame :: frames, stop, stream, after, more =>
      ∃ behindArg rest, Closes frames stop stream behindArg rest ∧
        frame.behind.Spans rest after more

variable {nesting : Nesting} {frames : List CallFrame} {calls : List OpenCall} {e e' : Expr}

theorem openCalls_cons (frame : CallFrame) :
    ((frame :: frames).map openCall).reverse ++ calls =
      (frames.map openCall).reverse ++ frame.openCall :: calls := by
  simp

theorem read_lists {before : List (Derivation × Token)} {call : OpenCall} {outer : List OpenCall}
    {stream next : TokenStream} (h : Lists before stream next)
    (hexpects : Expects nesting (call :: outer))
    (hallows : ∀ d ∈ before, nesting.Allows (outer.length + 1) d.1.expr) (resume : Cursor) :
    ∃ resume', read nesting ⟨call :: outer, none, resume⟩ stream =
      read nesting ⟨⟨call.name, (before.map fun d => d.1.expr).reverse ++ call.args, true⟩ :: outer,
        none, resume'⟩ next := by
  induction before generalizing call stream resume with
  | nil =>
      obtain rfl : next = stream := h
      obtain ⟨name, args, awaiting⟩ := call
      obtain rfl : awaiting = true := hexpects.1
      exact ⟨resume, rfl⟩
  | cons pair before ih =>
      obtain ⟨d, separator⟩ := pair
      obtain ⟨after, behindComma, more, hspans, hcomma, hmore⟩ := h
      obtain ⟨resume', hfirst⟩ := d.handsOver (call :: outer) resume hspans hexpects
        (hallows _ List.mem_cons_self)
      rw [read_of_next (take_comma hcomma rfl)] at hfirst
      have hnext : Expects nesting ((call.push d.expr).separate :: outer) := ⟨rfl, hexpects.2⟩
      obtain ⟨resume'', hread⟩ := ih hmore hnext
        (fun d hd => hallows d (List.mem_cons_of_mem _ hd)) _
      refine ⟨resume'', ?_⟩
      rw [hfirst, hread]
      simp [OpenCall.push, OpenCall.separate]

/-- The reader comes to the innermost argument with all the calls open. -/
theorem read_opens {stream inside : TokenStream} (h : Opens frames stream inside)
    (hexpects : Expects nesting calls) (hallows : nesting.Allows calls.length (fillAll frames e))
    (resume : Cursor) :
    Expects nesting ((frames.map openCall).reverse ++ calls) ∧
      ∃ resume', read nesting ⟨calls, none, resume⟩ stream =
        read nesting ⟨(frames.map openCall).reverse ++ calls, none, resume'⟩ inside := by
  induction frames generalizing calls stream resume with
  | nil =>
      obtain rfl : inside = stream := h
      exact ⟨hexpects, resume, rfl⟩
  | cons frame frames ih =>
      obtain ⟨a, b, args, next, rfl, hhead, hopening, hlists, hopens⟩ := h
      obtain ⟨-, hargs⟩ := Nesting.allows_call_iff.mp hallows
      have hinner : nesting.Allows (calls.length + 1) (fillAll frames e) :=
        hargs _ (by simp [fillAll])
      have hbefore : ∀ d ∈ frame.before, nesting.Allows (calls.length + 1) d.1.expr :=
        fun d hd => hargs _ (List.mem_append_left _ (List.mem_map_of_mem hd))
      obtain ⟨resume', hread⟩ := @read_opening _ args _ resume _ _ a b hhead hopening hexpects
      obtain ⟨resume'', hbeforehand⟩ := read_lists hlists
        (Nesting.expects_of_allows (.opened frame.head.text) rfl hinner) hbefore resume'
      have hdue : read nesting ⟨.opened frame.head.text :: calls, none, resume'⟩ args =
          read nesting ⟨frame.openCall :: calls, none, resume''⟩ next := by
        simpa [OpenCall.opened, openCall] using hbeforehand
      rw [hread, hdue, openCalls_cons]
      exact ih hopens (Nesting.expects_of_allows frame.openCall rfl hinner) hinner resume''

/-- Once the innermost argument is handed over, the calls are closed one after another. -/
theorem handsOver_closes {reading : Reading} {stop after : Cursor} {stream more : TokenStream}
    (h : Closes frames stop stream after more)
    (hallows : nesting.Allows calls.length (fillAll frames e'))
    (hover : HandsOver nesting reading ((frames.map openCall).reverse ++ calls) e stop stream) :
    HandsOver nesting reading calls (fillAll frames e) after more := by
  induction frames generalizing calls after more with
  | nil =>
      obtain ⟨rfl, rfl⟩ := h
      exact hover
  | cons frame frames ih =>
      obtain ⟨behindArg, rest, hcloses, hspans⟩ := h
      obtain ⟨-, hargs⟩ := Nesting.allows_call_iff.mp hallows
      have hinner : nesting.Allows (frame.openCall :: calls).length (fillAll frames e') :=
        hargs _ (by simp [fillAll])
      rw [openCalls_cons] at hover
      obtain ⟨resume, rfl⟩ := ih hcloses hinner hover
      have hlast := frame.behind.handsOver (frame.openCall.push (fillAll frames e)) calls resume
        hspans rfl fun e he => hargs e (by simp [he])
      simpa [OpenCall.push, openCall, fillAll, fill] using hlast

theorem read_atom_error {token : Token} {resume after : Cursor} {more : TokenStream}
    {error : ParseError} (hkind : token.kind = .number) (hexpects : Expects nesting calls)
    (hatom : token.atom = .error error) :
    read nesting ⟨calls, none, resume⟩ (.token token after more) =
      .failure error (Reader.behind ⟨calls, none, resume⟩ after) := by
  have hrefusal : refusal nesting ⟨calls, none, resume⟩ token = none :=
    (refusal_eq_none_iff ..).mpr hexpects
  simp only [Reader.read, take, takeFresh, hkind, startExpr, hrefusal, reduceCtorEq, if_false, hatom]

section
variable {cursor place : Cursor} {digits behind : List Char} (hne : digits ≠ [])
  (hdigits : ∀ c ∈ digits, c.isDigit = true)
  (hopens : Opens frames (.ofCursor true cursor) (.ofCursor true place))
  (hrest : place.rest = digits ++ behind) (hstop : TokenKind.number.StopsAt behind)
  (hallows : nesting.Allows 0 (fillAll frames (.int 0)))
include hne hdigits hopens hrest hstop hallows

theorem readExpr_opens :
    Expects nesting (frames.map openCall).reverse ∧
      ∃ resume, cursor.readExpr nesting = read nesting ⟨(frames.map openCall).reverse, none, resume⟩
        (.token ⟨.number, String.ofList digits, place.location⟩ (place.past digits behind)
          (.ofCursor true (place.past digits behind))) := by
  have hstart : Expects nesting [] := trivial
  obtain ⟨hexpects, resume, hread⟩ := read_opens hopens hstart hallows cursor
  rw [List.append_nil] at hexpects hread
  rw [TokenStream.ofCursor_digits hne hdigits hrest hstop] at hread
  exact ⟨hexpects, resume, hread⟩

/-- If the value fits and there are few digits, the calls go on with the integer. -/
theorem readExpr_fits {v : UInt64} (hv : v.toNat = Token.digitsValue digits)
    (hlength : digits.length ≤ 20) {after : Cursor} {more : TokenStream}
    (hcloses : Closes frames (place.past digits behind)
      (.ofCursor true (place.past digits behind)) after more) :
    cursor.readExpr nesting = .value (fillAll frames (.int v)) after more := by
  obtain ⟨hexpects, resume, hread⟩ := readExpr_opens hne hdigits hopens hrest hstop hallows
  have hover : HandsOver nesting (cursor.readExpr nesting) ((frames.map openCall).reverse ++ [])
      (.int v) (place.past digits behind) (.ofCursor true (place.past digits behind)) := by
    rw [hread, List.append_nil]
    exact handsOver_of_deliver (take_atom (.inl rfl) hexpects (Token.atom_digits hlength hv))
  exact handsOver_closes hcloses hallows hover

/-- Otherwise the digits are an overflow, whatever stands behind them. -/
theorem readExpr_overflow (hover : 2 ^ 64 ≤ Token.digitsValue digits ∨ 20 < digits.length) :
    ∃ resume, cursor.readExpr nesting = .failure ⟨place.location, .intOverflow⟩ resume := by
  obtain ⟨hexpects, resume, hread⟩ := readExpr_opens hne hdigits hopens hrest hstop hallows
  exact ⟨_, hread.trans (read_atom_error rfl hexpects (Token.atom_overflow hover))⟩

end

end CallFrame

open CallFrame Reader

/-- Digits are read as the integer of their value if the value fits into 64 bits and there are at
most twenty of them, and they are an overflow at their place otherwise: as a text of their own and
as an argument of calls that the nesting limit allows. Without a leading zero, the value alone
decides. -/
theorem Cursor.readExpr_digits {digits : List Char} (hne : digits ≠ [])
    (hdigits : ∀ c ∈ digits, c.isDigit = true) :
    (digits.head? ≠ some '0' → Token.digitsValue digits < 2 ^ 64 → digits.length ≤ 20) ∧
    (∀ nesting sourceName, let text := ofText (String.ofList digits) sourceName
      (∀ v : UInt64, v.toNat = Token.digitsValue digits → digits.length ≤ 20 →
        ∃ after more, text.readExpr nesting = .value (.int v) after more) ∧
      (2 ^ 64 ≤ Token.digitsValue digits ∨ 20 < digits.length →
        ∃ resume, text.readExpr nesting = .failure ⟨⟨0, 0, sourceName⟩, .intOverflow⟩ resume)) ∧
    ∀ nesting frames cursor place behind,
      Opens frames (.ofCursor true cursor) (.ofCursor true place) →
      place.rest = digits ++ behind → TokenKind.number.StopsAt behind →
      nesting.Allows 0 (fillAll frames (.int 0)) →
      (∀ v : UInt64, v.toNat = Token.digitsValue digits → digits.length ≤ 20 → ∀ after more,
        Closes frames (place.past digits behind) (.ofCursor true (place.past digits behind))
          after more →
        cursor.readExpr nesting = .value (fillAll frames (.int v)) after more) ∧
      (2 ^ 64 ≤ Token.digitsValue digits ∨ 20 < digits.length →
        ∃ resume, cursor.readExpr nesting = .failure ⟨place.location, .intOverflow⟩ resume) := by
  refine ⟨Token.length_le_of_fits hdigits, ?_, ?_⟩
  · intro nesting sourceName text
    have hopens : Opens [] (.ofCursor true text) (.ofCursor true text) := rfl
    have hrest : text.rest = digits ++ [] := by simp [text, ofText]
    have hstop := TokenKind.stopsAt_nil .number
    have hallows : nesting.Allows 0 (fillAll [] (.int 0)) := by
      unfold Nesting.Allows
      simp only [fillAll, List.foldr_nil, Expr.nesting]
      omega
    refine ⟨fun v hv hlength => ?_, fun hover => ?_⟩
    · exact ⟨_, _, readExpr_fits hne hdigits hopens hrest hstop hallows hv hlength ⟨rfl, rfl⟩⟩
    · exact readExpr_overflow hne hdigits hopens hrest hstop hallows hover
  · intro nesting frames cursor place behind hopens hrest hstop hallows
    refine ⟨fun v hv hlength after more hcloses => ?_, fun hover => ?_⟩
    · exact readExpr_fits hne hdigits hopens hrest hstop hallows hv hlength hcloses
    · exact readExpr_overflow hne hdigits hopens hrest hstop hallows hover

/-- One zero before a numeral does no harm, and twenty are too many. -/
theorem Cursor.readExpr_digits_padded :
    (∃ after more, (ofText "f(a, 07)" none).readExpr ⟨200, 0⟩ =
      .value (.call "f" [.var "a", .int 7]) after more) ∧
    ∃ resume, (ofText (String.ofList (List.replicate 20 '0' ++ ['1'])) none).readExpr ⟨200, 0⟩ =
      .failure ⟨⟨0, 0, none⟩, .intOverflow⟩ resume := by
  constructor
  · let place : Cursor := ⟨⟨['0', '7', ')'], 5, 0, 0⟩, none⟩
    let separator : Token := ⟨.comma, ",", ⟨0, 3, none⟩⟩
    let frame : CallFrame :=
      { head := ⟨.symbol, "f", ⟨0, 0, none⟩⟩
        opening := ⟨.openParen, "(", ⟨0, 1, none⟩⟩
        before := [(.name ⟨.symbol, "a", ⟨0, 2, none⟩⟩, separator)]
        behind := .close ⟨.closeParen, ")", ⟨0, 7, none⟩⟩ }
    have hstream : TokenStream.ofCursor true (ofText "f(a, 07)" none) =
        .token frame.head ⟨⟨"(a, 07)".toList, 1, 0, 0⟩, none⟩
          (.token frame.opening ⟨⟨"a, 07)".toList, 2, 0, 0⟩, none⟩
            (.token ⟨.symbol, "a", ⟨0, 2, none⟩⟩ ⟨⟨", 07)".toList, 3, 0, 0⟩, none⟩
              (.token separator ⟨⟨" 07)".toList, 4, 0, 0⟩, none⟩ (.ofCursor true place)))) := by
      cbv
    have hopens : Opens [frame] (.ofCursor true (ofText "f(a, 07)" none)) (.ofCursor true place) :=
      ⟨_, _, _, _, hstream, rfl, rfl, ⟨_, _, _, ⟨rfl, rfl, .inr rfl⟩, rfl, rfl⟩, rfl⟩
    have hclosing : TokenStream.ofCursor true (place.past ['0', '7'] [')']) =
        .token ⟨.closeParen, ")", ⟨0, 7, none⟩⟩ ⟨⟨[], 8, 0, 0⟩, none⟩
          (.finished ⟨⟨[], 8, 0, 0⟩, none⟩) := by cbv
    have hdigits : ∀ c ∈ ['0', '7'], c.isDigit = true := by simp
    have hallows : Nesting.Allows ⟨200, 0⟩ 0 (fillAll [frame] (.int 0)) := by
      unfold Nesting.Allows
      decide
    obtain ⟨-, -, hinside⟩ := readExpr_digits (List.cons_ne_nil '0' ['7']) hdigits
    obtain ⟨hvalue, -⟩ := hinside ⟨200, 0⟩ [frame] _ place [')'] hopens rfl
      (TokenKind.stopsAt_cons [] (by decide)) hallows
    exact ⟨_, _, hvalue 7 (by decide) (by decide) _ _ ⟨_, _, ⟨rfl, rfl⟩, hclosing, rfl⟩⟩
  · have hdigits : ∀ c ∈ List.replicate 20 '0' ++ ['1'], c.isDigit = true := by simp
    obtain ⟨-, halone, -⟩ := readExpr_digits (List.append_ne_nil_of_right_ne_nil _ (by simp)) hdigits
    exact (halone ⟨200, 0⟩ none).2 (.inr (by simp))

end MacroScript
