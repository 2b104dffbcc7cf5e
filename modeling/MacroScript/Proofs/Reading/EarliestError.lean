import MacroScript.Proofs.Reading.Shape

/-!
# Errors at the earliest token

Every shape that reading comes to can be closed: a missing argument is filled in
and the open calls are closed, which no nesting limit forbids. So whatever was
read before an error is the beginning of a text that is read to its end. Unless
the text only ends too early, the token at the error can begin no such text:
more characters can make a name or a number longer, but a longer one does not
fit where the shorter one did not.
-/
namespace MacroScript

namespace Token

theorem atom_isOk_iff {token : Token} (hkind : token.kind = .number) :
    token.atom.isOk = true ↔
      token.text.toList.length ≤ maxDigits ∧ digitsValue token.text.toList < Expr.intBound := by
  simp only [atom, hkind]
  split_ifs with h
  · exact iff_of_true rfl h
  · exact iff_of_false Bool.false_ne_true h

theorem digitsValue_le_append (digits more : List Char) :
    digitsValue digits ≤ digitsValue (digits ++ more) := by
  unfold digitsValue
  rw [Nat.ofDigitChars_append, Nat.ofDigitChars_eq_ofDigitChars_zero (l := more)]
  calc Nat.ofDigitChars 10 digits 0
      ≤ 10 ^ more.length * Nat.ofDigitChars 10 digits 0 :=
        Nat.le_mul_of_pos_left _ (Nat.pow_pos (by decide))
    _ ≤ _ := Nat.le_add_right ..

end Token

namespace Shape

/-- Every call that holds an argument, or of which one is being read, is within the limit. -/
def Within (nesting : Nesting) : Shape → Prop
  | ⟨[], _⟩ => True
  | ⟨.opened :: outer, false⟩ => outer = [] ∨ nesting.base + outer.length ≤ nesting.limit
  | ⟨_ :: outer, _⟩ => nesting.base + outer.length < nesting.limit

/-- Characters that lead from a shape to the end of a text. -/
def completion : Shape → List Char
  | ⟨.separated :: outer, false⟩ => ' ' :: '0' :: List.replicate (outer.length + 1) ')'
  | ⟨slots, _⟩ => ' ' :: List.replicate slots.length ')'

variable {nesting : Nesting} {token : Token} {shape shape' : Shape} {cursor after : Cursor}

theorem within_named {slot : Slot} {outer : List Slot} :
    Within nesting ⟨slot :: outer, true⟩ ↔ nesting.base + outer.length < nesting.limit := by
  cases slot <;> rfl

theorem within_outer {slot : Slot} {outer : List Slot} {named : Bool}
    (h : Within nesting ⟨slot :: outer, named⟩) :
    outer = [] ∨ nesting.base + outer.length ≤ nesting.limit := by
  cases slot <;> cases named <;> simp only [Within] at h <;> first | exact h | omega

theorem within_fill {slots : List Slot}
    (h : slots = [] ∨ nesting.base + slots.length ≤ nesting.limit) :
    Within nesting ⟨fill slots, false⟩ := by
  cases slots with
  | nil => trivial
  | cons slot outer =>
      simp only [fill, Within, List.length_cons, reduceCtorEq, false_or] at h ⊢
      omega

theorem within_of_expects {slots : List Slot} (h : Expects nesting slots) :
    Within nesting ⟨slots, true⟩ ∧ Within nesting ⟨fill slots, false⟩ := by
  cases slots with
  | nil => exact ⟨trivial, trivial⟩
  | cons slot outer => exact ⟨within_named.mpr h.2, h.2⟩

theorem step_within (hstep : shape.step nesting token = some shape')
    (h : shape.Within nesting) : shape'.Within nesting := by
  obtain ⟨slots, named⟩ := shape
  cases named with
  | false =>
      cases hkind : token.kind with
      | symbol =>
          simp only [step, hkind, Option.ite_none_right_eq_some, Option.some.injEq] at hstep
          obtain ⟨hexpects, rfl⟩ := hstep
          exact (within_of_expects hexpects).1
      | number | string =>
          simp only [step, hkind, Option.ite_none_right_eq_some, Option.some.injEq] at hstep
          obtain ⟨⟨hexpects, _⟩, rfl⟩ := hstep
          exact (within_of_expects hexpects).2
      | comma =>
          rcases slots with _ | ⟨slot, outer⟩
          · simp [step, hkind] at hstep
          · cases slot <;> simp only [step, hkind, Option.some.injEq, reduceCtorEq] at hstep
            exact hstep ▸ h
      | closeParen =>
          rcases slots with _ | ⟨slot, outer⟩
          · simp [step, hkind] at hstep
          · simp only [step, hkind, Option.ite_none_left_eq_some, Option.some.injEq] at hstep
            obtain ⟨_, rfl⟩ := hstep
            exact within_fill (within_outer h)
      | openParen | finish | illegal => simp [step, hkind] at hstep
  | true =>
      cases hkind : token.kind with
      | openParen =>
          simp only [step, hkind, Option.some.injEq] at hstep
          subst hstep
          cases slots with
          | nil => exact .inl rfl
          | cons slot outer =>
              rw [within_named] at h
              refine .inr ?_
              rw [List.length_cons]
              omega
      | comma =>
          rcases slots with _ | ⟨slot, outer⟩
          · simp [step, hkind] at hstep
          · simp only [step, hkind, Option.some.injEq] at hstep
            exact hstep ▸ within_named.mp h
      | closeParen =>
          rcases slots with _ | ⟨slot, outer⟩
          · simp [step, hkind] at hstep
          · simp only [step, hkind, Option.some.injEq] at hstep
            exact hstep ▸ within_fill (within_outer h)
      | symbol | number | string | finish | illegal => simp [step, hkind] at hstep

theorem stopsAt_completion (shape : Shape) (kind : TokenKind) :
    kind.StopsAt shape.completion := by
  unfold completion
  split <;> exact TokenKind.stopsAt_single kind rfl

theorem step_close {slot : Slot} {outer : List Slot} {named : Bool}
    (hkind : token.kind = .closeParen) (h : named = true ∨ slot ≠ .separated) :
    step nesting token ⟨slot :: outer, named⟩ = some ⟨fill outer, false⟩ := by
  cases named with
  | false => simp [step, hkind, h.resolve_left Bool.false_ne_true]
  | true => simp only [step, hkind]

theorem verdict_closing {slots : List Slot} {named : Bool} {n : ℕ} (hn : slots.length = n)
    (h : named = true ∨ slots.head? ≠ some .separated)
    (hreach : cursor.Reaches (List.replicate n ')') after) (hend : after.rest = []) :
    verdict nesting ⟨slots, named⟩ (.ofCursor true cursor) = .accepted := by
  induction n generalizing cursor slots named with
  | zero =>
      obtain rfl := List.eq_nil_of_length_eq_zero hn
      rw [hreach.finished hend]
      rfl
  | succ n ih =>
      obtain ⟨slot, outer, rfl⟩ := List.exists_cons_of_length_eq_add_one hn
      rw [List.replicate_succ, ← List.singleton_append] at hreach
      obtain ⟨behind, hclose, hmore, _⟩ := hreach.append
      obtain ⟨location, hstream⟩ := hclose.single .closeParen rfl rfl (by decide)
      have hslot : named = true ∨ slot ≠ .separated := h.imp_right fun h he => h (he ▸ rfl)
      rw [hstream, verdict, step_close rfl hslot]
      have hlength : (fill outer).length = n := by
        rw [← Nat.succ.inj hn]
        cases outer <;> rfl
      have hhead : (fill outer).head? ≠ some .separated := by cases outer <;> simp [fill]
      exact ih hlength (.inr hhead) hmore

/-- A shape within the limit is followed by a text that is read to its end. -/
theorem verdict_completion (h : shape.Within nesting)
    (hreach : cursor.Reaches shape.completion after) (hend : after.rest = []) :
    shape.verdict nesting (.ofCursor true cursor) = .accepted := by
  unfold completion at hreach
  split at hreach
  · rename_i outer
    have hnumber := hreach.skip (by decide)
    rw [← List.singleton_append] at hnumber
    obtain ⟨behind, hzero, hmore, hrest⟩ := hnumber.append
    have hspell : TokenKind.Spelling .number ['0'] ['0'] :=
      .run rfl (by decide) (by simp; decide)
    have hstop : TokenKind.number.StopsAt behind.rest := by
      rw [hrest]
      exact TokenKind.stopsAt_cons _ (by decide)
    obtain ⟨location, hstream⟩ := hzero.token hspell (by decide) hstop
    have hstep : step nesting ⟨.number, String.ofList ['0'], location⟩
        ⟨.separated :: outer, false⟩ = some ⟨.filled :: outer, false⟩ := by
      have hexpects : Expects nesting (.separated :: outer) := ⟨by decide, h⟩
      have hatom : (Token.atom ⟨.number, String.ofList ['0'], location⟩).isOk = true :=
        (Token.atom_isOk_iff rfl).mpr ⟨by simp [Token.maxDigits], by simp; decide⟩
      simp only [step, hexpects, hatom, and_self, if_true, fill]
    rw [hstream, verdict, hstep]
    exact verdict_closing rfl (.inr (by simp)) hmore hend
  · rename_i slots named hfull
    refine verdict_closing rfl ?_ (hreach.skip (by decide)) hend
    by_contra hmissing
    simp only [not_or, not_not, Bool.not_eq_true] at hmissing
    obtain ⟨outer, rfl⟩ := List.head?_eq_some_iff.mp hmissing.2
    exact hfull outer rfl hmissing.1

/-- A token that does not fit is not helped by more characters. -/
theorem step_of_extended {kind : TokenKind} {text run : List Char} {location : Location}
    (h : step nesting ⟨kind, String.ofList text, location⟩ shape = none) :
    step nesting ⟨kind, String.ofList (text ++ run), location⟩ shape = none := by
  by_cases hkind : kind = .number
  · subst hkind
    obtain ⟨slots, named⟩ := shape
    cases named with
    | true => exact h
    | false =>
        have hshorter (hok : (Token.atom ⟨.number, String.ofList (text ++ run), location⟩).isOk) :
            (Token.atom ⟨.number, String.ofList text, location⟩).isOk := by
          rw [Token.atom_isOk_iff rfl, String.toList_ofList] at hok ⊢
          have hvalue := Token.digitsValue_le_append text run
          rw [List.length_append] at hok
          exact ⟨by omega, by omega⟩
        simp only [step, ite_eq_right_iff, reduceCtorEq, imp_false, not_and] at h ⊢
        exact fun hexpects hok => h hexpects (hshorter hok)
  · obtain ⟨slots, named⟩ := shape
    cases named <;> cases kind <;> first | exact absurd rfl hkind | exact h

theorem verdict_ne_accepted {kind : TokenKind} {text chars more : List Char}
    (hspell : kind.Spelling text chars) (hkind : kind ≠ .illegal)
    (hstep : shape.step nesting ⟨kind, String.ofList text, cursor.location⟩ = none)
    (hrest : cursor.rest = chars ++ more) :
    shape.verdict nesting (.ofCursor true cursor) ≠ .accepted := by
  obtain ⟨run, rest, rfl, hrun, hstop, _⟩ := hspell.extend more
  have hunfolds : TokenStream.Unfolds cursor _ :=
    .token (by simp [hrest] : _ = [] ++ ((chars ++ run) ++ rest)) (by simp) hkind hrun hstop
  have hlocation := cursor.location_past [] (chars ++ run ++ rest) cursor.rest
  rw [Cursor.past_nil_rest] at hlocation
  rw [← hunfolds.eq, verdict, hlocation, step_of_extended hstep]
  exact Verdict.noConfusion

/-- How reading gets stuck at a place: the text ends too early, or a token does not fit. -/
inductive Stuck (nesting : Nesting) (shape : Shape) (cursor : Cursor) : Verdict → Prop
  | incomplete : Stuck nesting shape cursor (.incomplete cursor.location)
  | refused {kind : TokenKind} {text chars rest : List Char} : cursor.rest = chars ++ rest →
      kind ≠ .illegal → kind.Spelling text chars → kind.StopsAt rest →
      shape.step nesting ⟨kind, String.ofList text, cursor.location⟩ = none →
      Stuck nesting shape cursor (.refused cursor.location)

theorem Stuck.location_eq {error : ParseError}
    (h : shape.Stuck nesting cursor (.ofError (some error))) :
    cursor.location = error.location := by
  obtain ⟨place, cause⟩ := error
  simp only [Verdict.ofError] at h
  split_ifs at h <;> cases h <;> rfl

theorem Stuck.exists_token {error : ParseError}
    (h : shape.Stuck nesting cursor (.ofError (some error))) (hend : error.cause.atEnd = false) :
    ∃ kind text chars rest, cursor.rest = chars ++ rest ∧ kind ≠ .illegal ∧
      TokenKind.Spelling kind text chars ∧ kind.StopsAt rest ∧
      shape.step nesting ⟨kind, String.ofList text, cursor.location⟩ = none := by
  obtain ⟨place, cause⟩ := error
  simp only [Verdict.ofError, hend, Bool.false_eq_true, if_false] at h
  cases h with
  | refused hrest hkind hspell hstop hstep =>
      exact ⟨_, _, _, _, hrest, hkind, hspell, hstop, hstep⟩

/-- Where reading gets stuck, it has taken some characters of the text, and it takes them in the
same way if other characters follow. -/
theorem exists_stuck (shape : Shape) (cursor : Cursor)
    (h : shape.verdict nesting (.ofCursor true cursor) ≠ .accepted)
    (hwithin : shape.Within nesting) :
    ∃ (passed rest : List Char) (shape' : Shape), cursor.rest = passed ++ rest ∧
      shape'.Within nesting ∧
      shape'.Stuck nesting (cursor.past passed rest)
        (shape.verdict nesting (.ofCursor true cursor)) ∧
      ∀ more, (∀ kind : TokenKind, kind.StopsAt rest → kind.StopsAt more) →
        shape.verdict nesting (.ofCursor true (cursor.past [] (passed ++ more))) =
          shape'.verdict nesting (.ofCursor true (cursor.past passed more)) := by
  induction hn : cursor.rest.length using Nat.strong_induction_on generalizing shape cursor with
  | _ n ih =>
      have hunfolds := TokenStream.unfolds cursor
      revert h
      generalize hstream : TokenStream.ofCursor true cursor = stream at hunfolds ⊢
      intro h
      cases hunfolds with
      | @token kind gap text chars rest hrest hgap hkind hspell hstop =>
          cases hstep : shape.step nesting
              ⟨kind, String.ofList text, (cursor.past gap (chars ++ rest)).location⟩ with
          | none =>
              simp only [verdict, hstep] at h ⊢
              refine ⟨gap, chars ++ rest, shape, hrest, hwithin,
                .refused (cursor.past_rest ..) hkind hspell hstop hstep, fun more _ => ?_⟩
              rw [TokenStream.ofCursor_past_gap cursor more hgap]
          | some shape' =>
              simp only [verdict, hstep] at h ⊢
              have hshorter : (cursor.past (gap ++ chars) rest).rest.length < n := by
                have hpos := List.length_pos_iff.mpr hspell.ne_nil
                simp only [← hn, hrest, Cursor.past_rest, List.length_append]
                omega
              obtain ⟨passed, rest', shape'', hrest', hwithin', hstuck, hsame⟩ :=
                ih _ hshorter shape' _ h (step_within hstep hwithin) rfl
              rw [Cursor.past_rest] at hrest'
              subst hrest'
              rw [Cursor.past_past] at hstuck
              refine ⟨gap ++ chars ++ passed, rest', shape'', by simp [hrest], hwithin', hstuck,
                fun more hmore => ?_⟩
              have hnext := hsame more hmore
              rw [Cursor.past_past, Cursor.past_past, List.append_nil] at hnext
              rw [List.append_assoc, TokenStream.ofCursor_past_token cursor
                (chars ++ (passed ++ rest')) hgap hkind hspell (hstop.append (hmore kind)),
                verdict, hstep]
              exact hnext
      | @finished gap rest hrest hgap hstop =>
          have hopen : shape.slots ≠ [] := fun hslots => h (if_pos hslots)
          rw [verdict, if_neg hopen]
          refine ⟨gap, rest, shape, hrest, hwithin, .incomplete, fun more _ => ?_⟩
          rw [TokenStream.ofCursor_past_gap cursor more hgap]
      | @unterminated opening gap rest hrest hgap hopening hall =>
          refine ⟨gap, opening :: rest, shape, hrest, hwithin, .incomplete, fun more _ => ?_⟩
          rw [TokenStream.ofCursor_past_gap cursor more hgap]

end Shape

theorem ParseCause.atEnd_eq_false {cause : ParseCause}
    (hstring : cause.message ≠ "unterminated string literal")
    (hcall : cause.message ≠ "expected ')' to close function arguments") :
    cause.atEnd = false := by
  cases cause <;> first | rfl | exact absurd rfl hstring | exact absurd rfl hcall

namespace Program

/-- A text is read to its end. -/
def Accepts (limit : Int) (sourceName : Option String) (text : List Char) : Prop :=
  (ofText limit (String.ofList text) sourceName).error = none

theorem accepts_iff (limit : Int) (source : String) (sourceName : Option String)
    (text : List Char) :
    Accepts limit sourceName text ↔ Shape.start.verdict ⟨limit, 0⟩
      (.ofCursor true ((Cursor.ofText source sourceName).past [] text)) = .accepted := by
  have hcursor : (Cursor.ofText source sourceName).past [] text =
      Cursor.ofText (String.ofList text) sourceName := by
    simp [Cursor.ofText, Cursor.past, Mark.past]
  rw [hcursor, ← verdict_error, Accepts, ofText]
  cases (ofCursor ⟨limit, 0⟩ (Cursor.ofText (String.ofList text) sourceName)).error with
  | none => simp [Verdict.ofError]
  | some error => simp only [Verdict.ofError, reduceCtorEq, false_iff]; split_ifs <;> simp

/-- Where an error stands, reading is stuck, and it comes to the same place if other characters
follow. -/
theorem exists_stuck_of_error {limit : Int} {source : String} {sourceName : Option String}
    {error : ParseError} (h : (ofText limit source sourceName).error = some error) :
    ∃ (passed rest : List Char) (shape : Shape), source.toList = passed ++ rest ∧
      shape.Within ⟨limit, 0⟩ ∧
      shape.Stuck ⟨limit, 0⟩ ((Cursor.ofText source sourceName).past passed rest)
        (.ofError (some error)) ∧
      ∀ more, (∀ kind : TokenKind, kind.StopsAt rest → kind.StopsAt more) →
        (Accepts limit sourceName (passed ++ more) ↔ shape.verdict ⟨limit, 0⟩
          (.ofCursor true ((Cursor.ofText source sourceName).past passed more)) = .accepted) := by
  have hverdict : Shape.start.verdict ⟨limit, 0⟩
      (.ofCursor true (Cursor.ofText source sourceName)) = .ofError (some error) := by
    rw [← h, ← verdict_error, ofText]
  have hne : Verdict.ofError (some error) ≠ .accepted := by
    simp only [Verdict.ofError]
    split_ifs <;> simp
  obtain ⟨passed, rest, shape, hrest, hwithin, hstuck, hsame⟩ :=
    Shape.exists_stuck .start _ (hverdict ▸ hne) trivial
  rw [hverdict] at hstuck
  refine ⟨passed, rest, shape, hrest, hwithin, hstuck, fun more hmore => ?_⟩
  rw [accepts_iff limit source, hsame more hmore]

/-- An error stands at one place of the text. What stands before it can be continued to a text
that is read to its end; with the token at the error this is impossible, unless the text only ends
too early. -/
theorem error_earliest (limit : Int) (source : String) (sourceName : Option String)
    (error : ParseError) (h : (ofText limit source sourceName).error = some error) :
    ∃ p ≤ source.length, Location.behind (source.toList.take p) sourceName = error.location ∧
      (∀ q ≤ source.length,
        Location.behind (source.toList.take q) sourceName = error.location → q = p) ∧
      (∃ suffix, Accepts limit sourceName (source.toList.take p ++ suffix)) ∧
      (error.message ≠ "unterminated string literal" →
        error.message ≠ "expected ')' to close function arguments" →
        ∃ token after, ((Cursor.ofText source sourceName).past (source.toList.take p)
            (source.toList.drop p)).scanHere = (.token token, after) ∧
          token.location = error.location ∧ p < after.offset ∧
          ∀ suffix, ¬ Accepts limit sourceName (source.toList.take after.offset ++ suffix)) := by
  obtain ⟨passed, rest, shape, hsource, hwithin, hstuck, hsame⟩ := exists_stuck_of_error h
  have hlength : passed.length ≤ source.toList.length := by
    rw [hsource, List.length_append]
    omega
  have htake : source.toList.take passed.length = passed := by rw [hsource, List.take_left]
  have hdrop : source.toList.drop passed.length = rest := by rw [hsource, List.drop_left]
  have hplace := hstuck.location_eq
  rw [Cursor.location_past_ofText] at hplace
  rw [← source.length_toList]
  refine ⟨passed.length, hlength, by rw [htake, hplace], fun q hq hq' => ?_, ?_, ?_⟩
  · rw [← hplace, ← htake] at hq'
    exact Location.behind_take_injective hq hlength hq'
  · refine ⟨shape.completion, ?_⟩
    have hreach := ((Cursor.ofText source sourceName).past passed shape.completion).reaches_rest
    rw [Cursor.past_rest] at hreach
    rw [htake, hsame shape.completion fun kind _ => shape.stopsAt_completion kind]
    exact Shape.verdict_completion hwithin hreach (Cursor.past_rest ..)
  · intro hstring hcall
    obtain ⟨kind, text, chars, behind, hchars, hkind, hspell, hstop, hstep⟩ :=
      hstuck.exists_token (ParseCause.atEnd_eq_false hstring hcall)
    rw [Cursor.past_rest] at hchars
    subst hchars
    have hscan := Cursor.scanHere_of_spelling hspell hstop
      ((Cursor.ofText source sourceName).past_rest passed (chars ++ behind))
    obtain ⟨c, cs, rfl, _⟩ := hspell.head
    have hoffset : (((Cursor.ofText source sourceName).past passed (c :: cs ++ behind)).past
        (c :: cs) behind).offset = passed.length + (c :: cs).length := by
      rw [Cursor.past_offset, Cursor.past_offset]
      exact congrArg (· + _) (Nat.zero_add _)
    have htoken : source.toList.take (passed.length + (c :: cs).length) = passed ++ (c :: cs) := by
      rw [hsource, List.take_length_add_append, List.take_left]
    refine ⟨_, _, by rw [htake, hdrop]; exact hscan, hstuck.location_eq, ?_, fun suffix => ?_⟩
    · rw [hoffset, List.length_cons]
      omega
    · rw [hoffset, htoken, List.append_assoc, hsame (c :: cs ++ suffix) fun kind h => h]
      rw [Cursor.location_past _ passed _ (c :: cs ++ suffix)] at hstep
      exact Shape.verdict_ne_accepted hspell hkind hstep (Cursor.past_rest ..)

/-- A comma where an argument is missing, in the second line. -/
theorem error_earliest_comma :
    (ofText 8 "f(1,\n ,2)" none).error = some ⟨⟨1, 1, none⟩, .commaForArgument⟩ ∧
      (∃ suffix, Accepts 8 none ("f(1,\n ".toList ++ suffix)) ∧
      ∀ suffix, ¬ Accepts 8 none ("f(1,\n ,".toList ++ suffix) := by
  have h : (ofText 8 "f(1,\n ,2)" none).error = some ⟨⟨1, 1, none⟩, .commaForArgument⟩ := by cbv
  obtain ⟨p, _, _, hunique, hsuffix, htoken⟩ := error_earliest 8 "f(1,\n ,2)" none _ h
  obtain rfl : 6 = p := hunique 6 (by decide) (by decide)
  obtain ⟨token, after, hscan, _, _, hnot⟩ := htoken (by decide) (by decide)
  have hafter : after.offset = 7 := by
    have hcomma : ((Cursor.ofText "f(1,\n ,2)" none).past ("f(1,\n ,2)".toList.take 6)
        ("f(1,\n ,2)".toList.drop 6)).scanHere.2.offset = 7 := by decide
    rwa [hscan] at hcomma
  rw [hafter] at hnot
  exact ⟨h, hsuffix, hnot⟩

end Program

end MacroScript
