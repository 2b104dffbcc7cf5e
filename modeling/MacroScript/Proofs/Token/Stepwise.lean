import MacroScript.Proofs.Action.Ending
import MacroScript.Proofs.Token.Tiling
import MacroScript.Reading.Descent

/-!
# Scanning step by step

To scan a token character by character takes the token that scanning by runs
finds. A string that is not closed is the only way in which it can fail: before
a character is looked at or passed, the text has not ended, except behind the
opening quote of a string, where the end is expected.
-/
namespace MacroScript

namespace Cursor

variable {cursor after : Cursor} {token : Token}

theorem nextKind_skipIllegals (cursor : Cursor) : cursor.skipIllegals.nextKind ≠ .illegal := by
  obtain ⟨gap, rest, hrest, hgap, hstop⟩ := exists_run TokenKind.illegal.includes cursor.rest
  have hskip : cursor.skipIllegals = cursor.past gap rest := advanceRun_run hrest hgap hstop
  rw [hskip]
  cases rest with
  | nil => simp [nextKind]
  | cons c rest =>
      rw [nextKind_cons (cursor.past_rest gap (c :: rest))]
      intro hc
      exact Bool.false_ne_true ((hstop c rfl).symm.trans ((TokenKind.includes_iff _ c).mpr hc))

theorem behind_sourceName (cursor : Cursor) : cursor.behind.sourceName = cursor.sourceName := by
  unfold behind advance?
  cases cursor.rest <;> rfl

theorem scan_sourceName (skipping : Bool) (cursor : Cursor) :
    (cursor.scan skipping).2.sourceName = cursor.sourceName := by
  have hhere : ∀ cursor : Cursor, cursor.scanHere.2.sourceName = cursor.sourceName := by
    intro cursor
    unfold scanHere
    dsimp only
    split
    case h_3 =>
      split_ifs
      · exact cursor.behind_sourceName
      · rw [behind_sourceName]
        exact cursor.behind_sourceName
    case h_5 => exact cursor.behind_sourceName
    all_goals rfl
  cases skipping with
  | false => exact hhere cursor
  | true => exact hhere cursor.skipIllegals

theorem scanHere_token (h : cursor.scanHere = (.token token, after)) :
    token.kind = cursor.nextKind ∧ token.location = cursor.location ∧
      (token.kind = .finish → token = ⟨.finish, "", cursor.location⟩ ∧ after = cursor) := by
  unfold scanHere at h
  dsimp only at h
  split at h
  case h_3 hkind =>
    split_ifs at h
    · cases (Prod.mk.inj h).1
    · obtain ⟨htoken, -⟩ := Prod.mk.inj h
      obtain rfl := Lexeme.token.inj htoken
      rw [hkind]
      exact ⟨rfl, rfl, nofun⟩
  case h_4 hkind =>
    obtain ⟨htoken, hafter⟩ := Prod.mk.inj h
    obtain rfl := Lexeme.token.inj htoken
    rw [hkind]
    exact ⟨rfl, rfl, fun _ => ⟨rfl, hafter.symm⟩⟩
  all_goals
    obtain ⟨htoken, -⟩ := Prod.mk.inj h
    obtain rfl := Lexeme.token.inj htoken
    refine ⟨rfl, rfl, fun hfinish => ?_⟩
    simp_all

end Cursor

namespace TokenStream

variable {token : Token} {cursor after stop : Cursor} {opening : Location} {more : TokenStream}

theorem scan_of_token (h : ofCursor true cursor = .token token after more) :
    cursor.scan true = (.token token, after) ∧ token.location = cursor.skipIllegals.location ∧
      token.kind ≠ .illegal ∧ token.kind ≠ .finish := by
  rw [ofCursor] at h
  split at h
  · cases h
  · rename_i next behind hscan
    split_ifs at h with hkind
    cases h
    obtain ⟨hclass, hplace, -⟩ := Cursor.scanHere_token hscan
    exact ⟨hscan, hplace, hclass ▸ cursor.nextKind_skipIllegals, hkind⟩

theorem scan_of_finished (h : ofCursor true cursor = .finished stop) :
    cursor.scan true = (.token ⟨.finish, "", stop.location⟩, stop) := by
  rw [ofCursor] at h
  split at h
  · cases h
  · rename_i next behind hscan
    split_ifs at h with hkind
    cases h
    obtain ⟨htoken, hstop⟩ := (Cursor.scanHere_token hscan).2.2 hkind
    rw [hscan, htoken, hstop]

theorem scan_of_unterminated (h : ofCursor true cursor = .unterminated opening stop) :
    cursor.scan true = (.unterminated opening, stop) := by
  rw [ofCursor] at h
  split at h
  · rename_i hscan
    cases h
    exact hscan
  · split_ifs at h

end TokenStream

namespace Descent

section Loops

variable {α β : Type} {round : α → Action Cursor (Round α β)} {state next : α} {result : β}
  {fault : Fault} {cursor after : Cursor}

theorem loop_done (h : round state cursor = .ok (.done result) after) :
    loop round state cursor = .ok result after := by
  rw [loop, h]

theorem loop_error (h : round state cursor = .error fault after) :
    loop round state cursor = .error fault after := by
  rw [loop, h]

theorem loop_again (h : round state cursor = .ok (.again next) after)
    (hlt : after.rest.length < cursor.rest.length) :
    loop round state cursor = loop round next after := by
  rw [loop, h]
  exact dif_pos hlt

end Loops

variable {cursor after : Cursor} {c : Char} {chars rest : List Char} {kind : TokenKind}

theorem character_cons (h : cursor.rest = c :: rest) : character cursor = .ok c cursor := by
  simp only [character, Cursor.current?, h, List.head?_cons]

theorem advance_cons (h : cursor.rest = c :: rest) :
    advance cursor = .ok () (cursor.past [c] rest) := by
  rw [← Cursor.behind_eq_past h]
  simp only [advance, Cursor.behind, Cursor.advance?, h, Option.getD_some]

theorem atEnd_cons (h : cursor.rest = c :: rest) : cursor.atEnd = false := by
  rw [Cursor.atEnd, h, List.isEmpty_cons]

theorem atEnd_nil (h : cursor.rest = []) : cursor.atEnd = true := by
  rw [Cursor.atEnd, h, List.isEmpty_nil]

theorem rest_past_lt (h : cursor.rest = c :: rest) :
    (cursor.past [c] rest).rest.length < cursor.rest.length := by
  rw [Cursor.past_rest, h]
  exact Nat.lt_succ_self _

theorem kindAhead_eq (cursor : Cursor) : kindAhead cursor = .ok cursor.nextKind cursor := by
  unfold kindAhead
  rw [Action.get_bind]
  cases hrest : cursor.rest with
  | nil =>
      rw [if_pos (atEnd_nil hrest), Cursor.nextKind, hrest]
      rfl
  | cons c rest =>
      rw [if_neg (Bool.eq_false_iff.mp (atEnd_cons hrest)),
        Action.bind_of_ok (character_cons hrest), Cursor.nextKind_cons hrest]
      rfl

theorem passIgnored_run {gap : List Char} (hrest : cursor.rest = gap ++ rest)
    (hgap : ∀ c ∈ gap, TokenKind.ofChar c = .illegal)
    (hstop : (cursor.past gap rest).nextKind ≠ .illegal) :
    passIgnored cursor = .ok (cursor.past gap rest).nextKind (cursor.past gap rest) := by
  unfold passIgnored
  induction gap generalizing cursor with
  | nil =>
      rw [List.nil_append] at hrest
      subst hrest
      rw [Cursor.past_nil_rest] at hstop ⊢
      apply loop_done
      unfold ignoredRound
      rw [Action.bind_of_ok (kindAhead_eq cursor), if_neg hstop]
      rfl
  | cons c gap ih =>
      have hkind : cursor.nextKind = .illegal :=
        (Cursor.nextKind_cons hrest).trans (hgap c List.mem_cons_self)
      have hround : ignoredRound () cursor = .ok (.again ()) (cursor.past [c] (gap ++ rest)) := by
        unfold ignoredRound
        rw [Action.bind_of_ok (kindAhead_eq cursor), if_pos hkind,
          Action.bind_of_ok (advance_cons hrest)]
        rfl
      have hnext : (cursor.past [c] (gap ++ rest)).past gap rest = cursor.past (c :: gap) rest :=
        cursor.past_past [c] (gap ++ rest) gap rest
      rw [loop_again hround (rest_past_lt hrest), ih (Cursor.past_rest _ _ _), hnext]
      · exact fun d hd => hgap d (List.mem_cons_of_mem c hd)
      · rwa [hnext]

section Looking

variable {β : Type} (whenOver : Action Cursor β) (next : Char → Action Cursor β)

theorem look_cons (h : cursor.rest = c :: rest) :
    ((get : Action Cursor Cursor) >>= fun here =>
      if here.atEnd then whenOver else character >>= next) cursor =
      next c cursor := by
  rw [Action.get_bind, if_neg (Bool.eq_false_iff.mp (atEnd_cons h)),
    Action.bind_of_ok (character_cons h)]

theorem look_nil (h : cursor.rest = []) :
    ((get : Action Cursor Cursor) >>= fun here =>
      if here.atEnd then whenOver else character >>= next) cursor =
      whenOver cursor := by
  rw [Action.get_bind, if_pos (atEnd_nil h)]

end Looking

theorem passRun_run {run : List Char} (hrest : cursor.rest = c :: (run ++ rest))
    (hrun : ∀ d ∈ run, TokenKind.ofChar d = kind)
    (hstop : ∀ d ∈ rest.head?, TokenKind.ofChar d ≠ kind) :
    passRun kind cursor = .ok () (cursor.past (c :: run) rest) := by
  unfold passRun
  induction run generalizing c cursor with
  | nil =>
      have hnext := cursor.past_rest [c] rest
      apply loop_done
      unfold runRound
      rw [Action.bind_of_ok (advance_cons hrest)]
      cases rest with
      | nil =>
          rw [List.nil_append, look_nil _ _ hnext]
          rfl
      | cons d rest =>
          rw [List.nil_append, look_cons _ _ hnext, if_neg (hstop d rfl)]
          rfl
  | cons d run ih =>
      have hnext := cursor.past_rest [c] (d :: (run ++ rest))
      have hround : runRound kind () cursor =
          .ok (.again ()) (cursor.past [c] (d :: (run ++ rest))) := by
        unfold runRound
        rw [Action.bind_of_ok (advance_cons hrest), List.cons_append, look_cons _ _ hnext,
          if_pos (hrun d List.mem_cons_self)]
        rfl
      rw [loop_again hround (rest_past_lt hrest),
        ih hnext fun e he => hrun e (List.mem_cons_of_mem d he), Cursor.past_past]
      rfl

section Strings

variable {opening : Location} {text : List Char}

/-- A character of a string that is not the last one of the text is passed. -/
theorem stringRound_again {d : Char} (hrest : cursor.rest = c :: d :: text)
    (hd : TokenKind.ofChar d ≠ .string) :
    stringRound opening () cursor = .ok (.again ()) (cursor.past [c] (d :: text)) := by
  unfold stringRound
  rw [Action.bind_of_ok (Action.attempt_ok (advance_cons hrest))]
  dsimp only
  rw [look_cons _ _ (cursor.past_rest [c] (d :: text)), if_neg hd]
  rfl

theorem passString_closed {closing : Char} (hrest : cursor.rest = c :: (text ++ closing :: rest))
    (htext : ∀ d ∈ text, TokenKind.ofChar d ≠ .string)
    (hclosing : TokenKind.ofChar closing = .string) :
    passString opening cursor = .ok (cursor.past (c :: text) (closing :: rest))
      (cursor.past (c :: text ++ [closing]) rest) := by
  unfold passString
  induction text generalizing c cursor with
  | nil =>
      have hnext := cursor.past_rest [c] (closing :: rest)
      apply loop_done
      unfold stringRound
      rw [Action.bind_of_ok (Action.attempt_ok (advance_cons hrest))]
      dsimp only
      rw [List.nil_append, look_cons _ _ hnext, if_pos hclosing, Action.get_bind,
        Action.bind_of_ok (advance_cons hnext), Cursor.past_past]
      rfl
  | cons d text ih =>
      rw [List.cons_append] at hrest
      have hround : stringRound opening () cursor = _ :=
        stringRound_again hrest (htext d List.mem_cons_self)
      rw [loop_again hround (rest_past_lt hrest),
        ih (Cursor.past_rest _ _ _) fun e he => htext e (List.mem_cons_of_mem d he),
        Cursor.past_past, Cursor.past_past]
      rfl

theorem passString_unclosed (hrest : cursor.rest = c :: text)
    (htext : ∀ d ∈ text, TokenKind.ofChar d ≠ .string) :
    passString opening cursor =
      .error (.unterminatedString opening) (cursor.past (c :: text) []) := by
  unfold passString
  induction text generalizing c cursor with
  | nil =>
      apply loop_error
      unfold stringRound
      rw [Action.bind_of_ok (Action.attempt_ok (advance_cons hrest))]
      dsimp only
      rw [look_nil _ _ (cursor.past_rest [c] [])]
      rfl
  | cons d text ih =>
      have hround : stringRound opening () cursor = _ :=
        stringRound_again hrest (htext d List.mem_cons_self)
      rw [loop_again hround (rest_past_lt hrest),
        ih (Cursor.past_rest _ _ _) fun e he => htext e (List.mem_cons_of_mem d he),
        Cursor.past_past]
      rfl

end Strings

theorem slice_past {passed : List Char} (hrest : cursor.rest = passed ++ rest) (without : Nat)
    (former : List Char) :
    slice cursor (cursor.past passed former) without = String.ofList (passed.drop without) := by
  unfold slice
  rw [Cursor.past_offset, Nat.add_sub_cancel_left, hrest, List.take_left]

def scanned : Lexeme × Cursor → EStateM.Result Fault Cursor Token
  | (.token token, after) => .ok token after
  | (.unterminated opening, after) => .error (.unterminatedString opening) after

theorem takeToken_of_spelling {text : List Char} (h : kind.Spelling text chars)
    (hstop : kind.StopsAt rest) (hrest : cursor.rest = chars ++ rest) :
    takeToken kind cursor =
      .ok ⟨kind, String.ofList text, cursor.location⟩ (cursor.past chars rest) := by
  have hslice := slice_past hrest 0 rest
  rw [List.drop_zero] at hslice
  unfold takeToken
  rw [Action.get_bind]
  cases h with
  | run hrun hne hall =>
      obtain ⟨c, run, rfl⟩ := List.exists_cons_of_ne_nil hne
      have hpass : passRun kind cursor = .ok () (cursor.past (c :: run) rest) :=
        passRun_run hrest (fun d hd => hall d (List.mem_cons_of_mem c hd)) (hstop hrun)
      cases kind <;> simp only [TokenKind.isRun, Bool.false_eq_true] at hrun <;>
        · dsimp only
          rw [Action.bind_of_ok hpass, Action.get_bind, hslice]
          rfl
  | @quoted opening closing text hopening hclosing hall =>
      have hrest' : cursor.rest = opening :: (text ++ closing :: rest) := by
        rw [hrest, List.append_assoc]
        rfl
      dsimp only
      rw [Action.bind_of_ok (passString_closed hrest' hall hclosing),
        show slice cursor (cursor.past (opening :: text) (closing :: rest)) 1 =
          String.ofList text from slice_past hrest' 1 _]
      rfl
  | @single kind c hsingle hc =>
      have hpass : advance cursor = .ok () (cursor.past [c] rest) := advance_cons hrest
      cases kind <;> simp only [TokenKind.isSingle, Bool.false_eq_true] at hsingle <;>
        · dsimp only
          rw [Action.bind_of_ok hpass, Action.get_bind, hslice]
          rfl

theorem takeToken_eq (cursor : Cursor) :
    takeToken cursor.nextKind cursor = scanned cursor.scanHere := by
  obtain ⟨kind, text, chars, rest, hrest, hspell, hstop⟩ | hfinish |
    ⟨opening, rest, hrest, hopening, hall⟩ := cursor.scannable
  · obtain ⟨c, cs, rfl, hc⟩ := hspell.head
    rw [Cursor.scanHere_of_spelling hspell hstop hrest, Cursor.nextKind_cons hrest, hc,
      takeToken_of_spelling hspell hstop hrest]
    rfl
  · rw [Cursor.scanHere_of_finish hfinish, hfinish]
    rfl
  · rw [Cursor.scanHere_of_unclosed hrest hopening hall, Cursor.nextKind_cons hrest, hopening]
    unfold takeToken
    rw [Action.get_bind]
    dsimp only
    rw [Action.bind_of_error (passString_unclosed hrest hall)]
    rfl

theorem passIgnored_eq (cursor : Cursor) :
    passIgnored cursor = .ok cursor.skipIllegals.nextKind cursor.skipIllegals := by
  obtain ⟨gap, rest, hrest, hgap, hstop⟩ := exists_run TokenKind.illegal.includes cursor.rest
  have hskip : cursor.skipIllegals = cursor.past gap rest := Cursor.advanceRun_run hrest hgap hstop
  have hkind := cursor.nextKind_skipIllegals
  rw [hskip] at hkind ⊢
  exact passIgnored_run hrest (fun c hc => (TokenKind.includes_iff _ c).mp (hgap c hc)) hkind

/-- Scanning step by step finds what scanning by runs finds. -/
theorem nextToken_eq (skipping : Bool) (cursor : Cursor) :
    nextToken skipping cursor = scanned (cursor.scan skipping) := by
  unfold nextToken
  cases skipping with
  | false =>
      rw [if_neg Bool.false_ne_true, Action.bind_of_ok (kindAhead_eq cursor)]
      exact takeToken_eq cursor
  | true =>
      rw [if_pos rfl, Action.bind_of_ok (passIgnored_eq cursor)]
      exact takeToken_eq cursor.skipIllegals

theorem peekToken_eq (cursor : Cursor) : peekToken cursor =
    match (cursor.scan true).1 with
    | .token token => .ok token cursor
    | .unterminated opening => .error (.unterminatedString opening) cursor := by
  have htoken := nextToken_eq true cursor
  have hname := cursor.scan_sourceName true
  rcases hscan : cursor.scan true with ⟨lexeme, after⟩
  rw [hscan] at htoken hname
  -- To go back leaves the cursor where it was, since both are cursors on one text.
  have hback : after.restore cursor.snapshot = cursor := by
    rw [Cursor.restore, hname]
    rfl
  have hcleanup : (modify (·.restore cursor.snapshot) : Action Cursor Unit) after = .ok () cursor :=
    congrArg (EStateM.Result.ok ()) hback
  unfold peekToken
  rw [Action.get_bind]
  cases lexeme with
  | token token => exact Action.ensuring_ok htoken hcleanup
  | unterminated opening => exact Action.ensuring_error htoken hcleanup

end Descent

end MacroScript
