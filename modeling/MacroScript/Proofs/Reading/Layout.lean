import Mathlib
import MacroScript.Proofs.Reading.Program

/-!
# Layout

The reader looks at the kinds and the texts of the tokens, never at their
places. Two streams with the same tokens, at places that are related in some
way, are therefore read alike: the expressions are the same, and an error has
the same cause and stands at related places. Where the places are those of equal
positions in the two streams, this says that layout does not matter; the cursors
behind the tokens do not matter either way.
-/
namespace MacroScript

variable {place : Location → Location → Prop} {nesting : Nesting}

/-- Two tokens of one kind and text, at related places. -/
structure Token.Alike (place : Location → Location → Prop) (a b : Token) : Prop where
  kind : a.kind = b.kind
  text : a.text = b.text
  location : place a.location b.location

/-- Two errors of one cause, at related places. -/
structure ParseError.Alike (place : Location → Location → Prop) (a b : ParseError) : Prop where
  cause : a.cause = b.cause
  location : place a.location b.location

/-- Where places are related by a move, an error is the other one moved. -/
theorem ParseError.eq_map_of_alike {move : Location → Location} {found found' : Option ParseError}
    (h : Option.Rel (Alike fun here there => here = move there) found found') :
    found = found'.map fun error => { error with location := move error.location } := by
  cases h with
  | none => rfl
  | @some a b halike =>
      obtain ⟨here, cause⟩ := a
      obtain ⟨rfl, rfl⟩ := halike
      rfl

/-- The same tokens and the same end, at related places. -/
inductive TokenStream.Alike (place : Location → Location → Prop) :
    TokenStream → TokenStream → Prop
  | token {a b : Token} {behind behind' : Cursor} {more more' : TokenStream} :
      a.Alike place b → Alike place more more' →
      Alike place (.token a behind more) (.token b behind' more')
  | finished {stop stop' : Cursor} : place stop.location stop'.location →
      Alike place (.finished stop) (.finished stop')
  | unterminated {opening opening' : Location} {stop stop' : Cursor} : place opening opening' →
      Alike place (.unterminated opening stop) (.unterminated opening' stop')

theorem TokenStream.Alike.refl (stream : TokenStream) : stream.Alike (· = ·) stream := by
  induction stream with
  | token next behind more ih => exact .token ⟨rfl, rfl, rfl⟩ ih
  | finished stop => exact .finished rfl
  | unterminated opening stop => exact .unterminated rfl

/-- Two readers that have come equally far. -/
structure Reader.Alike (place : Location → Location → Prop) (a b : Reader) : Prop where
  calls : a.calls = b.calls
  head : Option.Rel (Token.Alike place) a.head b.head

/-- Two steps that come to the same, at related places. -/
inductive ReaderStep.Alike (place : Location → Location → Prop) : ReaderStep → ReaderStep → Prop
  | next {a b : Reader} : a.Alike place b → Alike place (.next a) (.next b)
  | complete (e : Expr) (after after' : Cursor) :
      Alike place (.complete e after) (.complete e after')
  | completeBefore (e : Expr) (before before' : Cursor) :
      Alike place (.completeBefore e before) (.completeBefore e before')
  | failure {error error' : ParseError} {resume resume' : Cursor} : error.Alike place error' →
      Alike place (.failure error resume) (.failure error' resume')

/-- Two answers that come to the same, at related places. -/
inductive Reading.Alike (place : Location → Location → Prop) : Reading → Reading → Prop
  | value (e : Expr) (after after' : Cursor) {more more' : TokenStream} :
      more.Alike place more' → Alike place (.value e after more) (.value e after' more')
  | nothing (stop stop' : Cursor) : Alike place (.nothing stop) (.nothing stop')
  | failure {error error' : ParseError} {resume resume' : Cursor} : error.Alike place error' →
      Alike place (.failure error resume) (.failure error' resume')

namespace Token.Alike

variable {a b : Token} (h : a.Alike place b)
include h

theorem adjacentError : a.adjacentError.Alike place b.adjacentError := by
  unfold Token.adjacentError
  rw [h.kind, h.text]
  split
  · exact ⟨rfl, h.location⟩
  · exact ⟨rfl, h.location⟩

theorem atom : (∃ e, a.atom = .ok e ∧ b.atom = .ok e) ∨
    ∃ error error', a.atom = .error error ∧ b.atom = .error error' ∧ error.Alike place error' := by
  unfold Token.atom
  rw [h.kind, h.text]
  split
  · dsimp only
    split_ifs
    · exact .inl ⟨_, rfl, rfl⟩
    · exact .inr ⟨_, _, rfl, rfl, rfl, h.location⟩
  · exact .inl ⟨_, rfl, rfl⟩
  · exact .inl ⟨_, rfl, rfl⟩

end Token.Alike

namespace Reader

section Steps

variable {a b : Reader} {token token' : Token} {after after' : Cursor}

theorem deliver_alike (h : a.calls = b.calls) (e : Expr) :
    (a.deliver e after).Alike place (b.deliver e after') := by
  unfold deliver
  rw [h]
  cases b.calls with
  | nil => exact .complete e after after'
  | cons call outer => exact .next ⟨rfl, .none⟩

theorem startExpr_alike (h : a.calls = b.calls) (ht : token.Alike place token') :
    (a.startExpr nesting token after).Alike place (b.startExpr nesting token' after') := by
  have hrefusal : b.refusal nesting token' = a.refusal nesting token := by
    unfold refusal
    rw [h, ht.text]
  unfold startExpr
  rw [hrefusal, ht.kind]
  cases a.refusal nesting token with
  | some cause => exact .failure ⟨rfl, ht.location⟩
  | none =>
      dsimp only
      split_ifs
      · exact .next ⟨h, .some ht⟩
      · rcases ht.atom with ⟨e, hatom, hatom'⟩ | ⟨error, error', hatom, hatom', herror⟩
        · rw [hatom, hatom']
          exact deliver_alike h e
        · rw [hatom, hatom']
          exact .failure herror

theorem takeFresh_alike (h : a.calls = b.calls) (ht : token.Alike place token') :
    (a.takeFresh nesting token after).Alike place (b.takeFresh nesting token' after') := by
  have hfailure (cause : ParseCause) :
      (ReaderStep.failure ⟨token.location, cause⟩ (a.behind after)).Alike place
        (.failure ⟨token'.location, cause⟩ (b.behind after')) := .failure ⟨rfl, ht.location⟩
  unfold takeFresh
  rw [ht.kind, ht.text, h]
  split
  · exact startExpr_alike h ht
  · exact startExpr_alike h ht
  · exact startExpr_alike h ht
  · exact hfailure _
  · exact hfailure _
  · exact hfailure _
  · exact hfailure _
  · split_ifs
    · exact hfailure _
    · exact .next ⟨rfl, .none⟩
  · split_ifs
    · exact hfailure _
    · apply deliver_alike
      rfl

theorem take_alike (h : a.Alike place b) (ht : token.Alike place token') :
    (a.take nesting token after).Alike place (b.take nesting token' after') := by
  obtain ⟨calls, head, resume⟩ := a
  obtain ⟨calls', head', resume'⟩ := b
  obtain ⟨rfl, hhead⟩ := h
  cases hhead with
  | none => exact takeFresh_alike rfl ht
  | @some symbol symbol' hsymbol =>
      unfold take
      dsimp only
      rw [ht.kind, hsymbol.text]
      cases token'.kind with
      | openParen => exact .next ⟨rfl, .none⟩
      | closeParen | comma =>
          cases calls with
          | nil => exact .completeBefore _ _ _
          | cons call outer => exact takeFresh_alike rfl ht
      | _ => exact .failure ht.adjacentError

end Steps

theorem read_alike {a b : Reader} {stream stream' : TokenStream} (h : a.Alike place b)
    (hs : stream.Alike place stream') :
    (a.read nesting stream).Alike place (b.read nesting stream') := by
  induction hs generalizing a b with
  | @token token token' behind behind' more more' ht hmore ih =>
      have hstep : (a.take nesting token behind).Alike place (b.take nesting token' behind') :=
        take_alike h ht
      unfold read
      generalize a.take nesting token behind = step at hstep
      generalize b.take nesting token' behind' = step' at hstep
      cases hstep with
      | next hreader => exact ih hreader
      | complete e after after' => exact .value e after after' hmore
      | completeBefore e before before' => exact .value e before before' (.token ht hmore)
      | failure herror => exact .failure herror
  | @finished stop stop' hstop =>
      obtain ⟨calls, head, resume⟩ := a
      obtain ⟨calls', head', resume'⟩ := b
      obtain ⟨rfl, hhead⟩ := h
      cases calls with
      | cons call outer => exact .failure ⟨rfl, hstop⟩
      | nil =>
          cases hhead with
          | none => exact .nothing stop stop'
          | @some symbol symbol' hsymbol =>
              unfold read finish
              dsimp only
              rw [hsymbol.text]
              exact .value _ _ _ (.finished hstop)
  | unterminated hopening => exact .failure ⟨rfl, hopening⟩

end Reader

/-- Programs of alike streams have the same expressions, and errors that are alike. -/
theorem Program.ofStream_alike (nesting : Nesting) {stream stream' : TokenStream}
    (h : stream.Alike place stream') (cursor cursor' : Cursor) :
    (ofStream nesting cursor stream).exprs = (ofStream nesting cursor' stream').exprs ∧
      Option.Rel (ParseError.Alike place) (ofStream nesting cursor stream).error
        (ofStream nesting cursor' stream').error := by
  induction hn : stream.length using Nat.strong_induction_on
    generalizing stream stream' cursor cursor' with
  | _ n ih =>
      have hread : ((Reader.start cursor).read nesting stream).Alike place
          ((Reader.start cursor').read nesting stream') := Reader.read_alike ⟨rfl, .none⟩ h
      rw [error_ofStream, error_ofStream]
      generalize ha : (Reader.start cursor).read nesting stream = answer at hread
      generalize hb : (Reader.start cursor').read nesting stream' = answer' at hread
      cases hread with
      | value e after after' hmore =>
          obtain ⟨hexprs, herror⟩ := ih _ (hn ▸ Reader.read_start_more_lt ha) hmore after after' rfl
          rw [exprs_of_value ha, exprs_of_value hb, hexprs]
          exact ⟨rfl, herror⟩
      | nothing =>
          rw [exprs_of_nothing ha, exprs_of_nothing hb]
          exact ⟨rfl, .none⟩
      | failure herror =>
          rw [exprs_of_failure ha, exprs_of_failure hb]
          exact ⟨rfl, .some herror⟩

/-- The cursors of a stream do not matter to its program. -/
theorem Program.ofStream_eq (nesting : Nesting) {stream stream' : TokenStream}
    (h : stream.Alike (· = ·) stream') (cursor cursor' : Cursor) :
    (ofStream nesting cursor stream).exprs = (ofStream nesting cursor' stream').exprs ∧
      (ofStream nesting cursor stream).error = (ofStream nesting cursor' stream').error := by
  obtain ⟨hexprs, herror⟩ := ofStream_alike nesting h cursor cursor'
  have hmoved : (ofStream nesting cursor stream).error =
      (ofStream nesting cursor' stream').error.map fun error =>
        { error with location := id error.location } := ParseError.eq_map_of_alike herror
  exact ⟨hexprs, hmoved.trans Option.map_id'⟩

namespace TokenStream

/-- The tokens without their places. -/
def words (stream : TokenStream) : List (TokenKind × String) :=
  stream.tokens.map fun token => (token.kind, token.text)

/-- The tokens of both streams have the same kinds and texts in the same order, and both streams end
in the same way. -/
def SameTokens (a b : TokenStream) : Prop :=
  a.words = b.words ∧ a.unterminated?.isSome = b.unterminated?.isSome

/-- Where the token at a position stands. The position behind the last token is that of the end of
input, or of the quote that is not closed. -/
def place? : TokenStream → Nat → Option Location
  | .token next _ _, 0 => some next.location
  | .token _ _ more, position + 1 => more.place? position
  | .finished stop, 0 => some stop.location
  | .unterminated opening _, 0 => some opening
  | .finished _, _ + 1 => none
  | .unterminated _ _, _ + 1 => none

/-- The places are those of one position in the two streams. -/
def SamePosition (a b : TokenStream) (here there : Location) : Prop :=
  ∃ position, a.place? position = some here ∧ b.place? position = some there

theorem SamePosition.later {a b : TokenStream} {here there : Location} {token token' : Token}
    {behind behind' : Cursor} (h : a.SamePosition b here there) :
    (TokenStream.token token behind a).SamePosition (.token token' behind' b) here there := by
  obtain ⟨position, hhere, hthere⟩ := h
  exact ⟨position + 1, hhere, hthere⟩

theorem SameTokens.alike {a b : TokenStream} (h : a.SameTokens b)
    (hplace : ∀ here there, a.SamePosition b here there → place here there) : a.Alike place b := by
  induction a generalizing b with
  | token next behind more ih =>
      cases b with
      | token next' behind' more' =>
          obtain ⟨hhead, hmore⟩ := List.cons.inj h.1
          obtain ⟨hkind, htext⟩ := Prod.mk.inj hhead
          apply Alike.token
          · exact ⟨hkind, htext, hplace _ _ ⟨0, rfl, rfl⟩⟩
          · exact ih ⟨hmore, h.2⟩ fun here there hsame => hplace here there hsame.later
      | finished => cases h.1
      | unterminated => cases h.1
  | finished stop =>
      cases b with
      | token => cases h.1
      | finished stop' => exact .finished (hplace _ _ ⟨0, rfl, rfl⟩)
      | unterminated => cases h.2
  | unterminated opening stop =>
      cases b with
      | token => cases h.1
      | finished => cases h.2
      | unterminated opening' stop' => exact .unterminated (hplace _ _ ⟨0, rfl, rfl⟩)

end TokenStream

/-- Two texts with the same tokens, and the same way of ending, hold the same expressions. Both are
read without an error, or reading stops in both for the same cause and at the same position among
the tokens, where the end is the position behind the last one. -/
theorem Program.ofText_same_tokens (limit : Int) {first second : String}
    {firstName secondName : Option String}
    (h : (TokenStream.ofCursor true (.ofText first firstName)).SameTokens
      (.ofCursor true (.ofText second secondName))) :
    (ofText limit first firstName).exprs = (ofText limit second secondName).exprs ∧
      Option.Rel
        (ParseError.Alike ((TokenStream.ofCursor true (.ofText first firstName)).SamePosition
          (.ofCursor true (.ofText second secondName))))
        (ofText limit first firstName).error (ofText limit second secondName).error :=
  ofStream_alike _ (h.alike fun _ _ hsame => hsame) _ _

/-- A call without its last argument, written on one line and on three. -/
theorem Program.ofText_same_tokens_threeLines :
    let stream := TokenStream.ofCursor true (.ofText "x(1,)" none)
    let spread := TokenStream.ofCursor true (.ofText "# x\n( 1 ,\n )" none)
    stream.SameTokens spread ∧
      ∃ error, (ofText 8 "# x\n( 1 ,\n )" none).error = some error ∧
        error.cause = .parenForArgument ∧ stream.SamePosition spread ⟨0, 4, none⟩ error.location := by
  have hsame : (TokenStream.ofCursor true (.ofText "x(1,)" none)).SameTokens
      (.ofCursor true (.ofText "# x\n( 1 ,\n )" none)) := ⟨by cbv, by cbv⟩
  have herror : (ofText 8 "x(1,)" none).error = some ⟨⟨0, 4, none⟩, .parenForArgument⟩ := by cbv
  have halike := (ofText_same_tokens 8 hsame).2
  rw [herror] at halike
  generalize (ofText 8 "# x\n( 1 ,\n )" none).error = found at halike ⊢
  cases halike with
  | @some _ error halike => exact ⟨hsame, error, rfl, halike.cause.symm, halike.location⟩

end MacroScript
