import MacroScript.Proofs.Editor.WordLookup
import MacroScript.Proofs.Reading.Sequence

/-!
# The diagnostics of the index

The index of a text is made in two passes. One reads the program and stops at
the first error, the other scans the whole text with ignored characters kept.
Together they say everything once: the error if there is one, and each character
that is neither blank nor part of a token, up to where scanning ends. Where it
ends at a string that is not closed the second pass says nothing about it, but
then there is an error, since the program cannot be read beyond this string.
-/
namespace MacroScript

theorem TokenKind.Spelling.length_eq {kind : TokenKind} {text chars chars' : List Char}
    (h : kind.Spelling text chars) (h' : kind.Spelling text chars') :
    chars.length = chars'.length := by
  cases h with
  | run hrun =>
      cases h' with
      | run => rfl
      | quoted => cases hrun
      | single => rfl
  | quoted =>
      cases h' with
      | run hrun => cases hrun
      | quoted => simp
      | single hsingle => cases hsingle
  | single hsingle =>
      cases h' with
      | run => rfl
      | quoted => cases hsingle
      | single => rfl

section Tilings

variable {text : List Char} {sourceName : Option String} {token : Token} {tokens : List Token}
  {start stop start' stop' : Nat}

theorem Token.Occupies.length_eq (h : token.Occupies text sourceName start stop) :
    (text.extract start stop).length = stop - start := by
  have hle := h.inText
  simp only [List.extract_eq_take_drop, List.length_take, List.length_drop]
  omega

theorem Token.Occupies.unique (h : token.Occupies text sourceName start stop)
    (h' : token.Occupies text sourceName start' stop') : start' = start ∧ stop' = stop := by
  obtain ⟨hle, hle'⟩ := h.inText
  obtain ⟨hge, hge'⟩ := h'.inText
  have hstart : start' = start :=
    Location.behind_take_injective (by omega) (by omega) (h'.location.symm.trans h.location)
  have hlength := h.spelled.length_eq h'.spelled
  rw [h.length_eq, h'.length_eq] at hlength
  omega

theorem Token.Occupies.start_lt_stop (h : token.Occupies text sourceName start stop) :
    start < stop := by
  have hpos := List.length_pos_iff.mpr h.spelled.ne_nil
  rw [h.length_eq] at hpos
  omega

theorem Tiles.start_le_stop (h : Tiles text sourceName start tokens stop) : start ≤ stop := by
  induction h with
  | nil => exact Nat.le_refl _
  | cons hoccupies _ ih =>
      have hlt := hoccupies.start_lt_stop
      omega

theorem Tiles.within (h : Tiles text sourceName start tokens stop) (htoken : token ∈ tokens)
    (hoccupies : token.Occupies text sourceName start' stop') : start ≤ start' := by
  induction h with
  | nil => cases htoken
  | cons hfirst htail ih =>
      obtain rfl | htoken := List.mem_cons.mp htoken
      · exact (hfirst.unique hoccupies).1.ge
      · have hlt := hfirst.start_lt_stop
        have hle := ih htoken
        omega

end Tilings

/-- A character of a text that is not blank and belongs to none of the tokens. -/
structure IsStray (text : List Char) (tokens : List Token) (offset : Nat) : Prop where
  visible : ∃ c, text[offset]? = some c ∧ Text.isBlank c = false
  outside : ∀ token ∈ tokens, ∀ start stop, token.Occupies text none start stop →
    ¬ (start ≤ offset ∧ offset < stop)

/-- The remark that the character at this offset is ignored. -/
def Diagnostic.IsAbout (text : List Char) (offset : Nat) (diagnostic : Diagnostic) : Prop :=
  ∃ c, text[offset]? = some c ∧
    diagnostic.message = "character " ++ Text.quoted (String.singleton c) ++ " is ignored" ∧
    diagnostic.severity = .info ∧
    Location.behind (text.take offset) none = ⟨diagnostic.row, diagnostic.column, none⟩

/-- The tokens without those of ignored characters. -/
def counted (tokens : List Token) : List Token := tokens.filter fun token => token.kind ≠ .illegal

theorem mem_counted_iff {token : Token} {tokens : List Token} :
    token ∈ counted tokens ↔ token ∈ tokens ∧ token.kind ≠ .illegal := by
  simp [counted]

section Strays

variable {text : List Char} {token : Token} {tokens : List Token} {start middle stop i : Nat}

theorem Token.Occupies.of_illegal (h : token.Occupies text none start stop)
    (hkind : token.kind = .illegal) :
    stop = start + 1 ∧ ∃ c, text[start]? = some c ∧ token.text = String.singleton c := by
  have hspelled := h.spelled
  have hlength := h.length_eq
  have hlt := h.start_lt_stop
  have hhead : (text.extract start stop).head? = text[start]? := by
    rw [List.extract_eq_take_drop, List.head?_take, if_neg (by omega), List.head?_drop]
  rw [hkind] at hspelled
  generalize hchars : text.extract start stop = chars at hspelled hlength hhead
  generalize hspelling : token.text.toList = spelling at hspelled
  cases hspelled with
  | run hrun => cases hrun
  | @single kind c hsingle hc =>
      refine ⟨by simp at hlength; omega, c, hhead.symm, ?_⟩
      rw [← String.ofList_toList (s := token.text), hspelling]
      rfl

theorem Token.Occupies.ofIgnored?_of_illegal (h : token.Occupies text none start stop)
    (hkind : token.kind = .illegal) :
    ∃ c diagnostic, text[start]? = some c ∧ diagnostic.IsAbout text start ∧
      Diagnostic.ofIgnored? token = if Text.isBlank c then none else some diagnostic := by
  obtain ⟨-, c, hc, htext⟩ := h.of_illegal hkind
  have hchars : token.text.toList = [c] := by
    rw [htext]
    exact String.toList_ofList
  refine ⟨c, ⟨token.location.row, token.location.column,
    "character " ++ Text.quoted token.text ++ " is ignored", .info⟩, hc, ?_, ?_⟩
  · refine ⟨c, hc, by rw [htext], rfl, ?_⟩
    rw [h.location]
    rfl
  · unfold Diagnostic.ofIgnored?
    rw [hkind, hchars]
    cases hblank : Text.isBlank c with
    | true => simp [hblank]
    | false =>
        simp only [List.all_cons, hblank]
        rfl

theorem Diagnostic.ofIgnored?_of_ne (hkind : token.kind ≠ .illegal) :
    ofIgnored? token = none := by
  unfold ofIgnored?
  simp [hkind]

/-- Behind a token, what is stray does not depend on the token. -/
theorem Token.Occupies.isStray_cons_iff (h : token.Occupies text none start middle)
    (hi : middle ≤ i) :
    IsStray text (counted (token :: tokens)) i ↔ IsStray text (counted tokens) i := by
  constructor
  · rintro ⟨hvisible, houtside⟩
    refine ⟨hvisible, fun other hother => houtside other ?_⟩
    rw [mem_counted_iff] at hother ⊢
    exact ⟨List.mem_cons_of_mem token hother.1, hother.2⟩
  · rintro ⟨hvisible, houtside⟩
    refine ⟨hvisible, fun other hother start' stop' hoccupies => ?_⟩
    obtain ⟨hmem, hcounts⟩ := mem_counted_iff.mp hother
    obtain rfl | hmem := List.mem_cons.mp hmem
    · have hstop := (h.unique hoccupies).2
      omega
    · exact houtside other (mem_counted_iff.mpr ⟨hmem, hcounts⟩) start' stop' hoccupies

theorem Token.Occupies.not_isStray (h : token.Occupies text none start middle)
    (hkind : token.kind ≠ .illegal) (hstart : start ≤ i) (hi : i < middle) :
    ¬ IsStray text (counted (token :: tokens)) i := by
  intro hstray
  have hcounted := mem_counted_iff.mpr ⟨List.mem_cons_self (l := tokens), hkind⟩
  exact hstray.outside token hcounted _ _ h ⟨hstart, hi⟩

theorem Token.Occupies.isStray_iff (h : token.Occupies text none start middle)
    (hkind : token.kind = .illegal) (htail : Tiles text none middle tokens stop) {c : Char}
    (hc : text[start]? = some c) :
    IsStray text (counted (token :: tokens)) start ↔ Text.isBlank c = false := by
  constructor
  · rintro ⟨⟨d, hd, hvisible⟩, -⟩
    rw [hc] at hd
    cases hd
    exact hvisible
  · intro hvisible
    refine ⟨⟨c, hc, hvisible⟩, fun other hother start' stop' hoccupies => ?_⟩
    obtain ⟨hmem, hcounts⟩ := mem_counted_iff.mp hother
    obtain rfl | hmem := List.mem_cons.mp hmem
    · exact absurd hkind hcounts
    · have hle := htail.within hmem hoccupies
      have hlt := h.start_lt_stop
      omega

/-- The stray characters among those of a tiling, and the remarks about them. -/
structure Remarks (text : List Char) (start stop : Nat) (tokens : List Token)
    (offsets : List Nat) : Prop where
  sorted : offsets.Pairwise (· < ·)
  mem_iff : ∀ i, i ∈ offsets ↔ start ≤ i ∧ i < stop ∧ IsStray text (counted tokens) i
  about : List.Forall₂ (fun i diagnostic => diagnostic.IsAbout text i) offsets
    (tokens.filterMap Diagnostic.ofIgnored?)

theorem Remarks.skip {offsets : List Nat} (h : Remarks text middle stop tokens offsets)
    (hoccupies : token.Occupies text none start middle)
    (hnone : Diagnostic.ofIgnored? token = none)
    (hnot : ∀ i, start ≤ i → i < middle → ¬ IsStray text (counted (token :: tokens)) i) :
    Remarks text start stop (token :: tokens) offsets where
  sorted := h.sorted
  mem_iff i := by
    have hlt := hoccupies.start_lt_stop
    rw [h.mem_iff]
    by_cases hi : middle ≤ i
    · rw [hoccupies.isStray_cons_iff hi]
      constructor
      · exact fun h => ⟨by omega, h.2⟩
      · exact fun h => ⟨hi, h.2⟩
    · constructor
      · exact fun h => absurd h.1 hi
      · exact fun h => absurd h.2.2 (hnot i h.1 (Nat.not_le.mp hi))
  about := by
    rw [List.filterMap_cons_none hnone]
    exact h.about

theorem Remarks.cons {offsets : List Nat} (h : Remarks text middle stop tokens offsets)
    (hoccupies : token.Occupies text none start middle) (hmiddle : middle = start + 1)
    (hstop : start < stop) {diagnostic : Diagnostic}
    (hsome : Diagnostic.ofIgnored? token = some diagnostic) (habout : diagnostic.IsAbout text start)
    (hstray : IsStray text (counted (token :: tokens)) start) :
    Remarks text start stop (token :: tokens) (start :: offsets) where
  sorted := by
    refine List.pairwise_cons.mpr ⟨fun i hi => ?_, h.sorted⟩
    have hle := ((h.mem_iff i).mp hi).1
    omega
  mem_iff i := by
    rw [List.mem_cons, h.mem_iff]
    by_cases hi : middle ≤ i
    · rw [hoccupies.isStray_cons_iff hi]
      constructor
      · rintro (rfl | h)
        · omega
        · exact ⟨by omega, h.2⟩
      · exact fun h => .inr ⟨hi, h.2⟩
    · constructor
      · rintro (rfl | h)
        · exact ⟨Nat.le_refl _, hstop, hstray⟩
        · exact absurd h.1 hi
      · exact fun h => .inl (by omega)
  about := by
    rw [List.filterMap_cons_some hsome]
    exact .cons habout h.about

/-- The remarks on the ignored tokens of a tiling are about the stray characters, each once and in
their order. -/
theorem Tiles.exists_remarks (h : Tiles text none start tokens stop) :
    ∃ offsets, Remarks text start stop tokens offsets := by
  induction h with
  | nil offset =>
      refine ⟨[], .nil, fun i => ?_, .nil⟩
      simp only [List.not_mem_nil, false_iff]
      omega
  | @cons token tokens start middle stop hoccupies htail ih =>
      obtain ⟨offsets, hremarks⟩ := ih
      by_cases hkind : token.kind = .illegal
      · obtain ⟨hmiddle, -⟩ := hoccupies.of_illegal hkind
        obtain ⟨c, diagnostic, hc, habout, hignored⟩ := hoccupies.ofIgnored?_of_illegal hkind
        have hstray := hoccupies.isStray_iff hkind htail hc
        cases hblank : Text.isBlank c with
        | true =>
            rw [hblank] at hignored hstray
            refine ⟨offsets, hremarks.skip hoccupies hignored fun i hstart hi => ?_⟩
            obtain rfl : i = start := by omega
            exact fun h => Bool.noConfusion (hstray.mp h)
        | false =>
            rw [hblank] at hignored hstray
            have hle := htail.start_le_stop
            refine ⟨start :: offsets, hremarks.cons hoccupies hmiddle (by omega) hignored habout ?_⟩
            exact hstray.mpr rfl
      · refine ⟨offsets, hremarks.skip hoccupies (Diagnostic.ofIgnored?_of_ne hkind) ?_⟩
        exact fun i hstart hi => hoccupies.not_isStray hkind hstart hi

end Strays

theorem Program.error_of_unterminated {limit : Int} {text : String} {sourceName : Option String}
    {opening : Location}
    (h : (TokenStream.ofCursor true (.ofText text sourceName)).unterminated? = some opening) :
    (ofText limit text sourceName).error ≠ none := by
  intro hnone
  have hverdict := verdict_error ⟨limit, 0⟩ (.ofText text sourceName)
  change Verdict.ofError (ofText limit text sourceName).error = _ at hverdict
  rw [hnone] at hverdict
  rw [Shape.unterminated_of_accepted hverdict.symm] at h
  cases h

theorem Diagnostic.severity_of_ofIgnored? {token : Token} {diagnostic : Diagnostic}
    (h : ofIgnored? token = some diagnostic) : diagnostic.severity = .info := by
  unfold ofIgnored? at h
  split_ifs at h
  cases h
  rfl

/-- The remarks on ignored characters are no errors. -/
theorem Index.hasErrors_iff (limit : Int) (text : String) :
    (ofText text limit).hasErrors = true ↔ (Program.ofText limit text none).error ≠ none := by
  have hinfo : (ignoredIn text).any (fun diagnostic => diagnostic.severity = .error) = false := by
    refine List.any_eq_false.mpr fun diagnostic hmem => ?_
    obtain ⟨token, -, hignored⟩ := List.mem_filterMap.mp hmem
    rw [Diagnostic.severity_of_ofIgnored? hignored]
    decide
  unfold hasErrors ofText
  dsimp only
  rw [List.any_append, hinfo, Bool.or_false]
  cases (Program.ofText limit text none).error with
  | none => simp
  | some error => simp [Diagnostic.ofParseError]

/-- The diagnostics of a text are the error of the program, if there is one, and then one remark
about each character that is not blank and belongs to no token, in the order of the text and up to
where scanning ends. A string that is not closed, where scanning ends early, is always an error
too. -/
theorem Index.diagnostics_exact (limit : Int) (text : String) :
    let program := Program.ofText limit text none
    let stream := TokenStream.ofCursor true (.ofText text none)
    ∃ stop offsets infos, stream.EndsProperly text.toList none stop ∧
      (ofText text limit).diagnostics = (program.error.map fun error =>
        ⟨error.location.row, error.location.column, error.message, .error⟩).toList ++ infos ∧
      offsets.Pairwise (· < ·) ∧
      (∀ i, i ∈ offsets ↔ i < stop ∧ IsStray text.toList stream.tokens i) ∧
      List.Forall₂ (fun i info => info.IsAbout text.toList i) offsets infos ∧
      ((ofText text limit).hasErrors = true ↔ program.error ≠ none) ∧
      (stream.unterminated? ≠ none → (ofText text limit).hasErrors = true) := by
  intro program stream
  obtain ⟨stop, htiles, hends⟩ :=
    Cursor.tiles_onward text none [] text.toList rfl (.zero _)
  change Tiles text.toList none 0 (TokenStream.ofCursor false (.ofText text none)).tokens
    stop at htiles
  obtain ⟨htokens, hclosed⟩ := TokenStream.passing_eq_filter (.ofText text none)
  obtain ⟨offsets, hremarks⟩ := htiles.exists_remarks
  refine ⟨stop, offsets, ignoredIn text, ?_, rfl, hremarks.sorted, fun i => ?_, hremarks.about,
    hasErrors_iff limit text, fun hopen => ?_⟩
  · unfold TokenStream.EndsProperly
    change TokenStream.unterminated? stream = _ at hclosed
    rw [hclosed]
    exact hends
  · rw [hremarks.mem_iff]
    change _ ↔ i < stop ∧
      IsStray text.toList (TokenStream.ofCursor true (.ofText text none)).tokens i
    rw [htokens]
    exact ⟨fun h => h.2, fun h => ⟨Nat.zero_le i, h⟩⟩
  · obtain ⟨opening, hopening⟩ := Option.ne_none_iff_exists'.mp hopen
    exact (hasErrors_iff limit text).mpr (Program.error_of_unterminated hopening)

end MacroScript
