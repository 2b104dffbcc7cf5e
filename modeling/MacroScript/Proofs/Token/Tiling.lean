import MacroScript.Proofs.Token.Spelling

/-!
# Tokens tile their text

With ignored characters kept as tokens, the tokens of a text stand side by side
from its beginning up to where the input ends: at the first null character
outside of all strings, at the end of the text, or at a quote that is not
closed. Strings are told apart here by counting quotes alone: a place is outside
of all strings if an even number of quotes comes before it. With ignored
characters passed the stream has the same tokens without these characters, at
the same places, and the same end.
-/
namespace MacroScript

/-- The number of quotes of either kind. -/
def quoteCount (chars : List Char) : Nat := chars.countP TokenKind.string.includes

/-- No string is open at the offset. -/
def IsOutsideStrings (text : List Char) (offset : Nat) : Prop :=
  Even (quoteCount (text.take offset))

/-- Before the offset, null characters stand inside strings only. -/
def HasNoEndBefore (text : List Char) (offset : Nat) : Prop :=
  ∀ i < offset, text[i]? = some '\x00' → ¬ IsOutsideStrings text i

/-- The offset is that of the first null character outside of all strings, or of the end of the
text if there is no such character and every string is closed. -/
structure IsInputEnd (text : List Char) (offset : Nat) : Prop where
  stops : offset = text.length ∨ text[offset]? = some '\x00'
  outside : IsOutsideStrings text offset
  first : HasNoEndBefore text offset

/-- The offset is that of a quote which opens a string, and no quote of either kind follows. -/
structure IsUnclosedQuote (text : List Char) (offset : Nat) : Prop where
  opening : ∃ c, text[offset]? = some c ∧ TokenKind.ofChar c = .string
  outside : IsOutsideStrings text offset
  first : HasNoEndBefore text offset
  unclosed : ∀ c ∈ text.drop (offset + 1), TokenKind.ofChar c ≠ .string

/-- The token takes the characters between two offsets. If it is a run of its class, the run goes
on at neither end. -/
structure Token.Occupies (token : Token) (text : List Char) (sourceName : Option String)
    (start stop : Nat) : Prop where
  inText : start ≤ stop ∧ stop ≤ text.length
  spelled : token.kind.Spelling token.text.toList (text.extract start stop)
  location : token.location = .behind (text.take start) sourceName
  maximal : token.kind.isRun = true →
    (∀ c ∈ (text.take start).getLast?, TokenKind.ofChar c ≠ token.kind) ∧
      ∀ c ∈ text[stop]?, TokenKind.ofChar c ≠ token.kind

/-- The tokens stand side by side and cover the text from one offset to another. -/
inductive Tiles (text : List Char) (sourceName : Option String) : Nat → List Token → Nat → Prop
  | nil (offset : Nat) : Tiles text sourceName offset [] offset
  | cons {token : Token} {tokens : List Token} {start middle stop : Nat} :
      token.Occupies text sourceName start middle → Tiles text sourceName middle tokens stop →
      Tiles text sourceName start (token :: tokens) stop

theorem quoteCount_append (chars more : List Char) :
    quoteCount (chars ++ more) = quoteCount chars + quoteCount more := List.countP_append

theorem quoteCount_eq_zero {chars : List Char}
    (h : ∀ c ∈ chars, TokenKind.ofChar c ≠ .string) : quoteCount chars = 0 :=
  List.countP_eq_zero.mpr fun c hc hquote => h c hc ((TokenKind.includes_iff _ c).mp hquote)

theorem quoteCount_opening {opening : Char} {chars : List Char}
    (hopening : TokenKind.ofChar opening = .string)
    (h : ∀ c ∈ chars, TokenKind.ofChar c ≠ .string) : quoteCount (opening :: chars) = 1 := by
  have hcount := quoteCount_eq_zero h
  unfold quoteCount at hcount ⊢
  rw [List.countP_cons, hcount, if_pos ((TokenKind.includes_iff _ _).mpr hopening)]

theorem TokenKind.eq_null_of_ofChar {c : Char} (h : ofChar c = finish) : c = '\x00' := by
  unfold ofChar at h
  split_ifs at h
  assumption

namespace TokenKind.Spelling

variable {kind : TokenKind} {text chars : List Char}

theorem even_quoteCount (h : Spelling kind text chars) : Even (quoteCount chars) := by
  cases h with
  | run hrun _ hall =>
      rw [quoteCount_eq_zero]
      · exact Even.zero
      · rintro c hc hquote
        rw [← hall c hc, hquote] at hrun
        cases hrun
  | @quoted opening closing text hopening hclosing hall =>
      rw [quoteCount_append, quoteCount_opening hopening hall,
        quoteCount_opening hclosing (by simp)]
      exact even_two
  | @single kind c hsingle hc =>
      rw [quoteCount_eq_zero]
      · exact Even.zero
      · rintro d hd hquote
        rw [List.mem_singleton.mp hd, hc] at hquote
        rw [hquote] at hsingle
        cases hsingle

/-- A null character in a token is content of a string. -/
theorem quoteCount_before_null (h : Spelling kind text chars) {i : Nat}
    (hi : chars[i]? = some '\x00') : quoteCount (chars.take i) = 1 := by
  have hmem := List.mem_of_getElem? hi
  have hnull : ofChar '\x00' = finish := by decide
  cases h with
  | run hrun _ hall =>
      rw [← hall _ hmem, hnull] at hrun
      cases hrun
  | @quoted opening closing text hopening hclosing hall =>
      cases i with
      | zero =>
          obtain rfl : opening = '\x00' := by simpa using hi
          cases hopening
      | succ i =>
          have hlt : i < text.length := by
            by_contra hge
            rw [List.cons_append, List.getElem?_cons_succ,
              List.getElem?_append_right (by omega)] at hi
            obtain rfl : closing = '\x00' := List.mem_singleton.mp (List.mem_of_getElem? hi) |>.symm
            cases hclosing
          rw [List.cons_append, List.take_succ_cons, List.take_append_of_le_length (by omega)]
          exact quoteCount_opening hopening fun c hc => hall c (List.mem_of_mem_take hc)
  | @single kind c hsingle hc =>
      rw [← List.mem_singleton.mp hmem, hnull] at hc
      rw [← hc] at hsingle
      cases hsingle

theorem getLast (h : Spelling kind text chars) : ∃ c, chars.getLast? = some c ∧ ofChar c = kind := by
  cases h with
  | run _ hcs hall => exact ⟨_, List.getLast?_eq_some_getLast hcs, hall _ (List.getLast_mem hcs)⟩
  | quoted _ hclosing => exact ⟨_, List.getLast?_concat, hclosing⟩
  | single _ hc => exact ⟨_, rfl, hc⟩

end TokenKind.Spelling

theorem Cursor.nextKind_of_head {cursor : Cursor} {c : Char} (h : c ∈ cursor.rest.head?) :
    cursor.nextKind = .ofChar c := by
  obtain ⟨rest, hrest⟩ := List.head?_eq_some_iff.mp h
  exact nextKind_cons hrest

namespace TokenStream

/-- The stream at a cursor with ignored characters kept, read off the characters that follow. -/
inductive UnfoldsKept (cursor : Cursor) : TokenStream → Prop
  | token {kind : TokenKind} {text chars rest : List Char} :
      cursor.rest = chars ++ rest → kind.Spelling text chars → kind.StopsAt rest →
      UnfoldsKept cursor (.token ⟨kind, String.ofList text, cursor.location⟩
        (cursor.past chars rest) (ofCursor false (cursor.past chars rest)))
  | finished : cursor.nextKind = .finish → UnfoldsKept cursor (.finished cursor)
  | unterminated {opening : Char} {rest : List Char} :
      cursor.rest = opening :: rest → TokenKind.ofChar opening = .string →
      (∀ c ∈ rest, TokenKind.ofChar c ≠ .string) →
      UnfoldsKept cursor (.unterminated cursor.location (cursor.past (opening :: rest) []))

theorem unfoldsKept (cursor : Cursor) : UnfoldsKept cursor (ofCursor false cursor) := by
  have hscan : cursor.scan false = cursor.scanHere := rfl
  obtain ⟨kind, text, chars, rest, hrest, hspell, hstop⟩ | hfinish | ⟨opening, rest, hrest, ho, hall⟩ :=
    cursor.scannable
  · rw [Cursor.scanHere_of_spelling hspell hstop hrest] at hscan
    rw [ofCursor_of_token hscan hspell.ne_finish]
    exact .token hrest hspell hstop
  · rw [Cursor.scanHere_of_finish hfinish] at hscan
    rw [ofCursor_of_finish hscan rfl]
    exact .finished hfinish
  · rw [Cursor.scanHere_of_unclosed hrest ho hall] at hscan
    rw [ofCursor_of_unterminated hscan]
    exact .unterminated hrest ho hall

/-- Where no ignored character stands, both kinds of streams have the same next token. -/
theorem scan_skipping {cursor : Cursor}
    (h : ∀ c ∈ cursor.rest.head?, TokenKind.ofChar c ≠ .illegal) :
    cursor.scan true = cursor.scan false := by
  have hskip : cursor.skipIllegals = cursor.past [] cursor.rest :=
    Cursor.skipIllegals_eq_past rfl (by simp) h
  rw [Cursor.scan, if_pos rfl, hskip]
  rfl

/-- Passing the ignored characters drops their tokens and changes nothing else. -/
theorem passing_eq_filter (cursor : Cursor) :
    (ofCursor true cursor).tokens =
        (ofCursor false cursor).tokens.filter (fun token => token.kind ≠ .illegal) ∧
      (ofCursor true cursor).unterminated? = (ofCursor false cursor).unterminated? := by
  induction hn : cursor.rest.length using Nat.strong_induction_on generalizing cursor with
  | _ n ih =>
      have hunfolds := unfoldsKept cursor
      generalize hkept : ofCursor false cursor = kept at hunfolds
      cases hunfolds with
      | @token kind text chars rest hrest hspell hstop =>
          obtain ⟨c, cs, rfl, hc⟩ := hspell.head
          have hlength := congrArg List.length hrest
          simp only [List.length_append, List.length_cons] at hlength
          obtain ⟨htokens, hend⟩ := ih _ (by rw [Cursor.past_rest]; omega)
            (cursor.past (c :: cs) rest) rfl
          by_cases hillegal : kind = .illegal
          · -- An ignored character is a token of its own, which the other stream passes.
            subst hillegal
            cases hspell with
            | run hrun => cases hrun
            | single =>
                have hgap : ofCursor true (cursor.past [] ([c] ++ rest)) =
                    ofCursor true (cursor.past [c] rest) :=
                  ofCursor_past_gap cursor rest fun d hd => List.mem_singleton.mp hd ▸ hc
                rw [← hrest, Cursor.past_nil_rest] at hgap
                rw [hgap, htokens, hend]
                simp [tokens, unterminated?]
          · have hscan : cursor.scan true = cursor.scan false :=
              scan_skipping (by simp [hrest, hc, hillegal])
            have hhere := Cursor.scanHere_of_spelling hspell hstop hrest
            rw [ofCursor_of_token (hscan.trans hhere) hspell.ne_finish]
            simp [tokens, unterminated?, htokens, hend, hillegal]
      | finished hfinish =>
          have hscan : cursor.scan true = cursor.scan false :=
            scan_skipping fun c hc => by
              rw [← Cursor.nextKind_of_head hc, hfinish]
              decide
          have hhere := Cursor.scanHere_of_finish hfinish
          rw [ofCursor_of_finish (hscan.trans hhere) rfl]
          exact ⟨rfl, rfl⟩
      | @unterminated opening rest hrest ho hall =>
          have hscan : cursor.scan true = cursor.scan false :=
            scan_skipping (by simp [hrest, ho])
          have hhere := Cursor.scanHere_of_unclosed hrest ho hall
          rw [ofCursor_of_unterminated (hscan.trans hhere)]
          exact ⟨rfl, rfl⟩

end TokenStream

/-- A place between two tokens: no string is open, the input has not ended, and no run is cut in
two. -/
structure IsTokenBoundary (text : List Char) (offset : Nat) : Prop where
  outside : IsOutsideStrings text offset
  first : HasNoEndBefore text offset
  uncut : ∀ c ∈ (text.take offset).getLast?, ∀ d ∈ text[offset]?,
    (TokenKind.ofChar d).isRun = true → TokenKind.ofChar c ≠ TokenKind.ofChar d

namespace IsTokenBoundary

variable {kind : TokenKind} {passed text chars rest : List Char}

theorem zero (text : List Char) : IsTokenBoundary text 0 where
  outside := Even.zero
  first := nofun
  uncut := by simp

theorem token (h : IsTokenBoundary (passed ++ (chars ++ rest)) passed.length)
    (hspell : kind.Spelling text chars) (hstop : kind.StopsAt rest) :
    IsTokenBoundary (passed ++ (chars ++ rest)) (passed ++ chars).length where
  outside := by
    have hbefore := h.outside
    unfold IsOutsideStrings at hbefore ⊢
    rw [List.take_left] at hbefore
    rw [← List.append_assoc, List.take_left, quoteCount_append]
    exact hbefore.add hspell.even_quoteCount
  first i hi hnull := by
    by_cases hlt : i < passed.length
    · exact h.first i hlt hnull
    · obtain ⟨j, rfl⟩ := Nat.exists_eq_add_of_le (Nat.not_lt.mp hlt)
      rw [List.length_append] at hi
      have hj : chars[j]? = some '\x00' := by
        rw [List.getElem?_append_right (by omega), List.getElem?_append_left (by omega)] at hnull
        simpa using hnull
      have hbefore := h.outside
      unfold IsOutsideStrings at hbefore ⊢
      rw [List.take_left] at hbefore
      rw [List.take_length_add_append, List.take_append_of_le_length (by omega), quoteCount_append,
        hspell.quoteCount_before_null hj]
      exact Nat.not_even_iff_odd.mpr hbefore.add_one
  uncut c hc d hd hrun := by
    obtain ⟨last, hlast, hkind⟩ := hspell.getLast
    rw [← List.append_assoc, List.take_left, List.getLast?_append, hlast] at hc
    rw [← List.append_assoc, List.getElem?_append_right (Nat.le_refl _), Nat.sub_self,
      ← List.head?_eq_getElem?] at hd
    obtain rfl : last = c := by simpa using hc
    rintro heq
    rw [hkind] at heq
    exact hstop (heq ▸ hrun) d hd heq.symm

theorem occupies (h : IsTokenBoundary (passed ++ (chars ++ rest)) passed.length)
    (hspell : kind.Spelling text chars) (hstop : kind.StopsAt rest) (sourceName : Option String) :
    Token.Occupies ⟨kind, String.ofList text, .behind passed sourceName⟩
      (passed ++ (chars ++ rest)) sourceName passed.length (passed ++ chars).length where
  inText := by simp
  spelled := by simpa [List.extract] using hspell
  location := by rw [List.take_left]
  maximal hrun := by
    obtain ⟨first, tail, rfl, hfirst⟩ := hspell.head
    refine ⟨fun c hc heq => ?_, fun d hd => ?_⟩
    · exact h.uncut c hc first (by simp) (hfirst ▸ hrun) (heq.trans hfirst.symm)
    · rw [← List.append_assoc, List.getElem?_append_right (Nat.le_refl _), Nat.sub_self,
        ← List.head?_eq_getElem?] at hd
      exact hstop hrun d hd

end IsTokenBoundary

/-- The stream ends where the input does, or at a quote that is not closed. -/
def TokenStream.EndsProperly (stream : TokenStream) (text : List Char) (sourceName : Option String)
    (stop : Nat) : Prop :=
  stream.unterminated? = none ∧ IsInputEnd text stop ∨
    stream.unterminated? = some (.behind (text.take stop) sourceName) ∧ IsUnclosedQuote text stop

/-- From every boundary on, the tokens tile what is left. -/
theorem Cursor.tiles_onward (text : String) (sourceName : Option String) (passed rest : List Char)
    (htext : text.toList = passed ++ rest) (h : IsTokenBoundary text.toList passed.length) :
    ∃ stop, Tiles text.toList sourceName passed.length
        (TokenStream.ofCursor false ((ofText text sourceName).past passed rest)).tokens stop ∧
      (TokenStream.ofCursor false ((ofText text sourceName).past passed rest)).EndsProperly
        text.toList sourceName stop := by
  induction hn : rest.length using Nat.strong_induction_on generalizing passed rest with
  | _ n ih =>
      have hunfolds := TokenStream.unfoldsKept ((ofText text sourceName).past passed rest)
      generalize hstream : TokenStream.ofCursor false ((ofText text sourceName).past passed rest) =
        stream at hunfolds
      cases hunfolds with
      | @token kind spelled chars tail hrest hspell hstop =>
          rw [past_rest] at hrest
          subst hrest
          have hnext := ih tail.length
            (by have := List.length_pos_iff.mpr hspell.ne_nil; simp at hn; omega)
            (passed ++ chars) tail (by simp [htext]) (by rw [htext] at h ⊢; exact h.token hspell hstop)
            rfl
          rw [past_past]
          obtain ⟨stop, htiles, hend⟩ := hnext
          refine ⟨stop, .cons ?_ htiles, hend⟩
          rw [location_past_ofText]
          rw [htext] at h ⊢
          exact h.occupies hspell hstop sourceName
      | finished hfinish =>
          refine ⟨passed.length, .nil _, .inl ⟨rfl, ?_, h.outside, h.first⟩⟩
          cases rest with
          | nil => exact .inl (by simp [htext])
          | cons c rest =>
              rw [nextKind_cons (past_rest _ passed (c :: rest))] at hfinish
              refine .inr ?_
              rw [htext]
              simpa using TokenKind.eq_null_of_ofChar hfinish
      | @unterminated opening tail hrest ho hall =>
          rw [past_rest] at hrest
          subst hrest
          refine ⟨passed.length, .nil _, .inr ⟨?_, ⟨opening, ?_, ho⟩, h.outside, h.first, ?_⟩⟩
          · rw [location_past_ofText, htext, List.take_left]
            rfl
          · simp [htext]
          · rw [htext]
            simpa using hall

/-- The tokens of a text, ignored characters among them, stand side by side from the beginning of
the text to the end of the input or to a quote that is not closed. Each is spelled by the characters
that it takes, a run is as long as it can be, and each location is that of the first character. The
stream that passes ignored characters has the other tokens, and ends in the same way. -/
theorem TokenStream.tiles (text : String) (sourceName : Option String) :
    (∃ stop, Tiles text.toList sourceName 0 (ofCursor false (.ofText text sourceName)).tokens stop ∧
      (ofCursor false (.ofText text sourceName)).EndsProperly text.toList sourceName stop) ∧
    (ofCursor true (.ofText text sourceName)).tokens =
      (ofCursor false (.ofText text sourceName)).tokens.filter (fun token => token.kind ≠ .illegal) ∧
    (ofCursor true (.ofText text sourceName)).unterminated? =
      (ofCursor false (.ofText text sourceName)).unterminated? :=
  ⟨Cursor.tiles_onward text sourceName [] text.toList rfl (.zero _),
    passing_eq_filter (.ofText text sourceName)⟩

end MacroScript
