import MacroScript.Proofs.Reading.Argument
import MacroScript.Proofs.Reading.Causes
import MacroScript.Proofs.Text.Numeral

/-!
# Reading by descent does not fail

The reader that starts a reader of its own for every argument gives the answers
of the reader that keeps its open calls on a stack, and leaves the cursor where
that one restarts. So everything that could go wrong on the way does not: no
fault gets out, no loop stands still, and the branches for digits that are no
integer, for arguments that are not there and for ignored characters are never
taken. What carries the proof is that a reader of an argument starts where the
token of the argument was taken, and so takes the same token first.
-/
namespace MacroScript

theorem TokenKind.isDigit_of_ofChar {c : Char} (h : ofChar c = number) : c.isDigit = true := by
  unfold ofChar at h
  split_ifs at h
  assumption

namespace Descent

def told : Reading → Answer
  | .value e _ _ => .value e
  | .nothing _ => .nothing
  | .failure error _ => .because error.location error.cause

/-- An action ends as the reading says: with its answer, or with the fault that a string is not
closed if this is its error. -/
inductive Tells : EStateM.Result Fault Cursor Answer → Reading → Prop
  | answer (reading : Reading) : Tells (.ok (told reading) reading.cursor) reading
  | unterminated (opening : Location) (stop : Cursor) :
      Tells (.error (.unterminatedString opening) stop)
        (.failure ⟨opening, .unterminatedString⟩ stop)

theorem Tells.caught {action : Action Cursor Answer} {cursor : Cursor} {reading : Reading}
    (h : Tells (action cursor) reading) :
    caught action cursor = .ok (told reading) reading.cursor := by
  unfold Descent.caught
  generalize hend : action cursor = outcome at h
  cases h with
  | answer reading =>
      rw [Action.bind_of_ok (Action.attempt_ok hend)]
      rfl
  | unterminated opening stop =>
      rw [Action.bind_of_ok (Action.attempt_error hend)]
      rfl

section Tokens

variable {cursor after : Cursor} {token : Token}

theorem digits_of_number (hends : token.EndsAt cursor after) (hkind : token.kind = .number) :
    token.text.toList ≠ [] ∧ ∀ c ∈ token.text.toList, c.isDigit = true := by
  obtain ⟨passed, chars, rest, -, hspell, -, -⟩ := hends
  rw [hkind] at hspell
  generalize token.text.toList = text at hspell ⊢
  cases hspell with
  | run _ hne hall => exact ⟨hne, fun c hc => TokenKind.isDigit_of_ofChar (hall c hc)⟩
  | single hsingle => cases hsingle

theorem integer_eq {place : Location} (hkind : token.kind = .number)
    (hdigits : ∀ c ∈ token.text.toList, c.isDigit = true) (hne : token.text.toList ≠ [])
    (hplace : token.location = place) :
    integer token place after =
      match token.atom with
      | .ok e => .ok (.value e) after
      | .error error => .ok (.because error.location error.cause) after := by
  subst hplace
  unfold integer Token.atom
  rw [hkind]
  dsimp only
  rw [← String.length_toList]
  by_cases hlong : Token.maxDigits < token.text.toList.length
  · rw [if_pos hlong, if_neg (fun h => by omega)]
    rfl
  · have hshort : token.text.toList.length ≤ Text.maxDigits :=
      (Nat.not_lt.mp hlong).trans (by decide)
    have hvalue := Text.integer?_of_isDigit hne hdigits hshort
    rw [String.ofList_toList] at hvalue
    rw [if_neg hlong, hvalue]
    dsimp only
    by_cases hfits : Token.digitsValue token.text.toList < Expr.intBound
    · rw [if_neg (by exact_mod_cast Nat.not_le.mpr hfits), if_pos ⟨Nat.not_lt.mp hlong, hfits⟩]
      have hint : Expr.ofInt (Token.digitsValue token.text.toList : Int) =
          .ok (.int (Token.digitsValue token.text.toList).toUInt64) := by
        have hbound : (0 : Int) ≤ Token.digitsValue token.text.toList ∧
            (Token.digitsValue token.text.toList : Int) < Expr.intBound :=
          ⟨Int.natCast_nonneg _, Int.ofNat_lt.mpr hfits⟩
        rw [Expr.ofInt, Expr.ofInt?, if_pos hbound]
        rfl
      rw [hint]
      rfl
    · rw [if_pos (by exact_mod_cast Nat.not_lt.mp hfits), if_neg fun h => hfits h.2]
      rfl

end Tokens

section Calls

variable {nesting : Nesting} {inner : nesting.base < nesting.limit → Action Cursor Answer}
  {name : String} {args : List Expr} {awaiting : Bool} {cursor after : Cursor} {token : Token}

theorem argumentRound_of_token (h : cursor.scan true = (.token token, after)) :
    argumentRound nesting inner name (args, awaiting) cursor =
      takeInCall nesting inner name args awaiting cursor token after := by
  have htoken : nextToken true cursor = .ok token after := by
    rw [nextToken_eq, h]
    rfl
  unfold argumentRound
  rw [Action.get_bind, Action.bind_of_ok htoken]

theorem argumentRound_of_unterminated {opening : Location}
    (h : cursor.scan true = (.unterminated opening, after)) :
    argumentRound nesting inner name (args, awaiting) cursor =
      .error (.unterminatedString opening) after := by
  have htoken : nextToken true cursor = .error (.unterminatedString opening) after := by
    rw [nextToken_eq, h]
    rfl
  unfold argumentRound
  rw [Action.get_bind, Action.bind_of_error htoken]

/-- Readers of arguments find what a reader on a stack finds there, one level deeper. -/
def AgreesInside (nesting : Nesting)
    (inner : nesting.base < nesting.limit → Action Cursor Answer) : Prop :=
  ∀ hroom cursor, inner hroom cursor =
    .ok (told (cursor.readExpr nesting.deeper)) (cursor.readExpr nesting.deeper).cursor

/-- The reader of an argument starts at the first token of the argument, and its cursor is taken
over behind the last one. -/
theorem takeArgument_eq (hinner : AgreesInside nesting inner)
    (hroom : nesting.base < nesting.limit) (hafter : cursor.Onward after) :
    takeArgument nesting inner hroom args cursor after =
      match cursor.readExpr nesting.deeper with
      | .value arg stop _ => .ok (.again (args ++ [arg], false)) stop
      | .nothing stop => .ok (.done (.error stop.location argumentMissing)) after
      | .failure error _ => .ok (.done (.because error.location error.cause)) after := by
  have hfork : onFork cursor (inner hroom) after = .ok (told (cursor.readExpr nesting.deeper),
      (cursor.readExpr nesting.deeper).cursor) after := by
    rw [onFork, hinner]
  have hname : after.sourceName = (cursor.readExpr nesting.deeper).cursor.sourceName := by
    rw [hafter.sourceName, (cursor.readExpr_onward nesting.deeper).sourceName]
  unfold takeArgument
  rw [Action.bind_of_ok hfork]
  cases hread : cursor.readExpr nesting.deeper with
  | value arg stop more =>
      have hback : after.restore stop.snapshot = stop := by
        rw [Cursor.restore, hname, hread]
        rfl
      exact congrArg (EStateM.Result.ok _) hback
  | nothing stop => rfl
  | failure error resume => rfl

theorem takeInCall_argument
    (hkind : token.kind = .symbol ∨ token.kind = .number ∨ token.kind = .string) :
    takeInCall nesting inner name args awaiting cursor token =
      if !awaiting then return .done (.because token.location (.missingSeparator token.text))
      else if h : nesting.base < nesting.limit then takeArgument nesting inner h args cursor
      else return .done (.because token.location (.nestedTooDeep nesting.limit)) := by
  obtain hkind | hkind | hkind := hkind <;> simp only [takeInCall, hkind]

/-- The reader on a stack with one open call. -/
def inCall (name : String) (args : List Expr) (awaiting : Bool) (resume : Cursor) : Reader :=
  ⟨[⟨name, args.reverse, awaiting⟩], none, resume⟩

/-- Where a token may start an argument, the round goes on behind the argument, or ends with an
error. -/
theorem argument_tells (hinner : AgreesInside nesting inner) {more : TokenStream}
    (hstream : TokenStream.ofCursor true cursor = .token token after more)
    (hkind : token.kind = .symbol ∨ token.kind = .number ∨ token.kind = .string) (resume : Cursor)
    (hlater : ∀ args stop, stop.rest.length < cursor.rest.length →
      Tells (loop (argumentRound nesting inner name) (args, false) stop)
        ((inCall name args false stop).read nesting (.ofCursor true stop))) :
    Tells (loop (argumentRound nesting inner name) (args, awaiting) cursor)
      ((inCall name args awaiting resume).read nesting (.token token after more)) := by
  have hround : argumentRound nesting inner name (args, awaiting) cursor = _ :=
    argumentRound_of_token (TokenStream.scan_of_token hstream).1
  have htake : (inCall name args awaiting resume).take nesting token after =
      (inCall name args awaiting resume).startExpr nesting token after := by
    obtain hkind | hkind | hkind := hkind <;>
      simp only [Reader.take, Reader.takeFresh, inCall, hkind]
  have hcall : takeInCall nesting inner name args awaiting cursor token = _ :=
    takeInCall_argument hkind
  rw [hcall] at hround
  cases awaiting with
  | false =>
      rw [loop_done hround, Reader.read, htake]
      exact .answer (.failure ⟨token.location, .missingSeparator token.text⟩ after)
  | true =>
      rw [if_neg (by simp)] at hround
      by_cases hroom : nesting.base < nesting.limit
      · have honward := (TokenStream.endsAt_of_ofCursor hstream).1.movesOn.onward
        have hread : (inCall name args true resume).read nesting (.token token after more) = _ :=
          Reader.read_argument rfl hroom hkind resume cursor more
        have hown : (Reader.start cursor).read nesting.deeper (.token token after more) =
            cursor.readExpr nesting.deeper := by
          rw [Cursor.readExpr, hstream]
        rw [dif_pos hroom, takeArgument_eq hinner hroom honward] at hround
        rw [hread, hown]
        cases hfound : cursor.readExpr nesting.deeper with
        | value arg stop others =>
            rw [hfound] at hround
            have hpush : inCall name (args ++ [arg]) false stop =
                ⟨[OpenCall.push ⟨name, args.reverse, true⟩ arg], none, stop⟩ := by
              simp only [inCall, OpenCall.push, List.reverse_append, List.reverse_singleton,
                List.singleton_append]
            have hlt := (Cursor.readExpr_value_movesOn hfound).rest_lt
            rw [loop_again hround hlt, Reading.enclosed, ← hpush, Cursor.readExpr_more hfound]
            exact hlater _ stop hlt
        | nothing stop =>
            -- A reader that starts at a token finds something.
            rw [Cursor.readExpr, hstream] at hfound
            cases (Reader.eq_finished_of_read_nothing hfound).2.2
        | failure error back =>
            rw [hfound] at hround
            rw [loop_done hround]
            exact .answer (.failure error after)
      · have hrefusal : (inCall name args true resume).refusal nesting token =
            some (.nestedTooDeep nesting.limit) := by
          simp [inCall, Reader.refusal]
          omega
        rw [dif_neg hroom] at hround
        rw [loop_done hround, Reader.read, htake, Reader.startExpr, hrefusal]
        exact .answer (.failure ⟨token.location, .nestedTooDeep nesting.limit⟩ after)

theorem loop_argumentRound_tells (hinner : AgreesInside nesting inner) (resume : Cursor) :
    Tells (loop (argumentRound nesting inner name) (args, awaiting) cursor)
      ((inCall name args awaiting resume).read nesting (.ofCursor true cursor)) := by
  induction hn : cursor.rest.length using Nat.strong_induction_on
    generalizing cursor args awaiting resume with
  | _ size ih =>
      cases hstream : TokenStream.ofCursor true cursor with
      | finished stop =>
          have hround : argumentRound nesting inner name (args, awaiting) cursor =
              .ok (.done (.because stop.location .unclosedCall)) stop := by
            rw [argumentRound_of_token (TokenStream.scan_of_finished hstream)]
            rfl
          rw [loop_done hround]
          exact .answer (.failure ⟨stop.location, .unclosedCall⟩ stop)
      | unterminated opening stop =>
          have hround : argumentRound nesting inner name (args, awaiting) cursor = _ :=
            argumentRound_of_unterminated (TokenStream.scan_of_unterminated hstream)
          rw [loop_error hround]
          exact .unterminated opening stop
      | token token after more =>
          obtain ⟨hscan, -, hlegal, hgoes⟩ := TokenStream.scan_of_token hstream
          have hround : argumentRound nesting inner name (args, awaiting) cursor = _ :=
            argumentRound_of_token hscan
          obtain ⟨hends, hmore⟩ := TokenStream.endsAt_of_ofCursor hstream
          have hlt := hends.movesOn.rest_lt
          cases hkind : token.kind with
          | illegal => exact absurd hkind hlegal
          | finish => exact absurd hkind hgoes
          | symbol | number | string =>
              apply argument_tells hinner hstream (by simp [hkind])
              intro args stop hlater
              exact ih _ (hn ▸ hlater) stop rfl
          | openParen =>
              simp only [takeInCall, hkind] at hround
              rw [loop_done hround]
              simp only [Reader.read, inCall, Reader.take, Reader.takeFresh, hkind]
              exact .answer (.failure ⟨token.location, .openParenInCall⟩ after)
          | comma =>
              simp only [takeInCall, hkind] at hround
              simp only [Reader.read, inCall, Reader.take, Reader.takeFresh, hkind]
              cases awaiting with
              | true =>
                  rw [loop_done hround]
                  exact .answer (.failure ⟨token.location, .commaForArgument⟩ after)
              | false =>
                  rw [loop_again hround hlt, hmore]
                  exact ih _ (hn ▸ hlt) _ rfl
          | closeParen =>
              simp only [takeInCall, hkind] at hround
              simp only [Reader.read, inCall, Reader.take, Reader.takeFresh, hkind,
                List.isEmpty_reverse]
              cases hmissing : awaiting && !args.isEmpty with
              | true =>
                  rw [hmissing] at hround
                  rw [loop_done hround]
                  exact .answer (.failure ⟨token.location, .parenForArgument⟩ after)
              | false =>
                  rw [hmissing] at hround
                  rw [loop_done hround]
                  have hanswer : Tells (.ok (.value (.call name args)) after)
                      (.value (.call name args) after more) :=
                    .answer (.value (.call name args) after more)
                  simpa [Reader.deliver, OpenCall.close] using hanswer

theorem symbol_tells (hinner : AgreesInside nesting inner) :
    Tells (symbol nesting inner token after)
      (Reader.read nesting ⟨[], some token, after⟩ (.ofCursor true after)) := by
  have hpeek := peekToken_eq after
  unfold symbol
  cases hstream : TokenStream.ofCursor true after with
  | finished stop =>
      rw [TokenStream.scan_of_finished hstream] at hpeek
      rw [Action.bind_of_ok hpeek]
      exact .answer (.value (.var token.text) after (.finished stop))
  | unterminated opening stop =>
      rw [TokenStream.scan_of_unterminated hstream] at hpeek
      rw [Action.bind_of_error hpeek]
      exact .unterminated opening after
  | token peeked behind more =>
      obtain ⟨hscan, -, hlegal, hgoes⟩ := TokenStream.scan_of_token hstream
      rw [hscan] at hpeek
      rw [Action.bind_of_ok hpeek]
      cases hkind : peeked.kind with
      | illegal => exact absurd hkind hlegal
      | finish => exact absurd hkind hgoes
      | openParen =>
          have htoken : nextToken true after = .ok peeked behind := by
            rw [nextToken_eq, hscan]
            rfl
          dsimp only
          rw [Action.bind_of_ok htoken]
          simp only [Reader.read, Reader.take, hkind]
          rw [(TokenStream.endsAt_of_ofCursor hstream).2]
          exact loop_argumentRound_tells hinner behind
      | closeParen | comma =>
          simp only [Reader.read, Reader.take, hkind]
          exact .answer (.value (.var token.text) after (.token peeked behind more))
      | symbol | number | string =>
          simp only [Reader.read, Reader.take, hkind, Token.adjacentError]
          exact .answer (.failure ⟨peeked.location, .adjacentExpressions⟩ after)

theorem expression_tells (hinner : AgreesInside nesting inner) (cursor : Cursor) :
    Tells (expression nesting inner cursor) (cursor.readExpr nesting) := by
  have hskip := (cursor.readExpr_skipIllegals nesting).1
  unfold expression Cursor.readExpr
  rw [Action.bind_of_ok (passIgnored_eq cursor), Action.get_bind]
  cases hstream : TokenStream.ofCursor true cursor with
  | finished stop =>
      rw [hstream] at hskip
      have htoken : nextToken true cursor.skipIllegals = .ok ⟨.finish, "", stop.location⟩ stop := by
        rw [nextToken_eq, TokenStream.scan_of_finished hskip]
        rfl
      rw [Action.bind_of_ok htoken]
      exact .answer (.nothing stop)
  | unterminated opening stop =>
      rw [hstream] at hskip
      have htoken : nextToken true cursor.skipIllegals =
          .error (.unterminatedString opening) stop := by
        rw [nextToken_eq, TokenStream.scan_of_unterminated hskip]
        rfl
      rw [Action.bind_of_error htoken]
      exact .unterminated opening stop
  | token token after more =>
      have hmore := (TokenStream.endsAt_of_ofCursor hstream).2
      obtain ⟨-, hplace, hlegal, hgoes⟩ := TokenStream.scan_of_token hstream
      rw [hstream] at hskip
      have htoken : nextToken true cursor.skipIllegals = .ok token after := by
        rw [nextToken_eq, (TokenStream.scan_of_token hskip).1]
        rfl
      rw [Action.bind_of_ok htoken]
      cases hkind : token.kind with
      | illegal => exact absurd hkind hlegal
      | finish => exact absurd hkind hgoes
      | symbol =>
          simp only [Reader.read, Reader.take, Reader.takeFresh, Reader.start, hkind,
            Reader.startExpr, Reader.refusal]
          rw [hmore]
          exact symbol_tells hinner
      | number =>
          obtain ⟨hne, hdigits⟩ := digits_of_number (TokenStream.endsAt_of_ofCursor hstream).1 hkind
          have hinteger : integer token cursor.skipIllegals.location after = _ :=
            integer_eq hkind hdigits hne hplace
          simp only [Reader.read, Reader.take, Reader.takeFresh, Reader.start, hkind,
            Reader.startExpr, Reader.refusal, reduceCtorEq, if_false]
          rw [hinteger]
          cases token.atom with
          | ok e => exact .answer (.value e after more)
          | error error => exact .answer (.failure error after)
      | string =>
          simp only [Reader.read, Reader.take, Reader.takeFresh, Reader.start, hkind,
            Reader.startExpr, Reader.refusal, Token.atom]
          exact .answer (.value (.string token.text) after more)
      | openParen | closeParen | comma =>
          simp only [Reader.read, Reader.take, Reader.takeFresh, Reader.start, hkind]
          rw [← hplace]
          exact .answer (.failure ⟨token.location, .strayToken token.text⟩ after)

end Calls

/-- The reader that starts other readers for the arguments answers as the one that keeps the open
calls on a stack, and leaves the cursor at the same place. -/
theorem nextExpr_eq (nesting : Nesting) (cursor : Cursor) :
    nextExpr nesting cursor =
      .ok (told (cursor.readExpr nesting)) (cursor.readExpr nesting).cursor := by
  induction hn : (nesting.limit - nesting.base).toNat using Nat.strong_induction_on
    generalizing nesting cursor with
  | _ levels ih =>
      rw [nextExpr]
      apply Tells.caught
      apply expression_tells
      intro hroom start
      exact ih _ (by simp only [Nesting.deeper]; omega) nesting.deeper start rfl

end Descent

/-- Whatever the text, the cursor and the nesting limit, scanning a token fails in no other way
than by a string that is not closed, looking at the next token moves nothing, and reading an
expression ends in an answer: the one of the reader on a stack. A reader that is started where a
token of an argument was taken takes this token again and so finds something. No error says that
an argument is missing, that digits are no integer, or that an ignored character was found. -/
theorem Cursor.reading_ends_in_answer (nesting : Nesting) (cursor : Cursor) :
    (∀ skipping,
      Descent.nextToken skipping cursor = Descent.scanned (cursor.scan skipping) ∧
      ∀ fault after, Descent.nextToken skipping cursor = .error fault after →
        ∃ opening, fault = .unterminatedString opening) ∧
    Descent.passIgnored cursor = .ok cursor.skipIllegals.nextKind cursor.skipIllegals ∧
    (Descent.peekToken cursor = match (cursor.scan true).1 with
      | .token token => .ok token cursor
      | .unterminated opening => .error (.unterminatedString opening) cursor) ∧
    Descent.nextExpr nesting cursor =
      .ok (Descent.told (cursor.readExpr nesting)) (cursor.readExpr nesting).cursor ∧
    (∀ token after, Descent.nextToken true cursor = .ok token after →
      (Descent.passIgnored >>= fun _ => Descent.nextToken true) cursor = .ok token after ∧
        (token.kind ≠ .finish → ∀ stop, Descent.nextExpr nesting cursor ≠ .ok .nothing stop)) ∧
    ∀ place message after, Descent.nextExpr nesting cursor = .ok (.error place message) after →
      ¬ ParseCause.IsUnused message := by
  have hread := Descent.nextExpr_eq nesting cursor
  refine ⟨fun skipping => ⟨Descent.nextToken_eq skipping cursor, ?_⟩, Descent.passIgnored_eq cursor,
    Descent.peekToken_eq cursor, hread, ?_, ?_⟩
  · intro fault after hfault
    rw [Descent.nextToken_eq] at hfault
    rcases hscan : cursor.scan skipping with ⟨lexeme, stop⟩
    rw [hscan] at hfault
    cases lexeme with
    | token token => cases hfault
    | unterminated opening =>
        cases hfault
        exact ⟨opening, rfl⟩
  · intro token after htoken
    constructor
    · have hskip : cursor.skipIllegals.scan true = cursor.scan true := by
        simp only [scan, if_true, skipIllegals_skipIllegals]
      rw [Action.bind_of_ok (Descent.passIgnored_eq cursor), Descent.nextToken_eq, hskip,
        ← Descent.nextToken_eq]
      exact htoken
    · intro hkind stop hnothing
      rw [hread] at hnothing
      cases hfound : cursor.readExpr nesting with
      | value | failure => rw [hfound] at hnothing; cases hnothing
      | nothing stop =>
          have hstream := (Reader.eq_finished_of_read_nothing hfound).2.2
          rw [Descent.nextToken_eq, TokenStream.scan_of_finished hstream] at htoken
          cases htoken
          exact hkind rfl
  · intro place message after herror
    rw [hread] at herror
    cases hfound : cursor.readExpr nesting with
    | value | nothing => rw [hfound] at herror; cases herror
    | failure error resume =>
        rw [hfound] at herror
        cases herror
        exact ParseCause.not_isUnused_message (Reader.isLegal_of_read hfound)

end MacroScript
