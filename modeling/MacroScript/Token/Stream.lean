import MacroScript.Token.Basic

/-!
# Token streams

All tokens from a cursor on. A stream ends at the end of input, or at a string
whose closing quote is missing. Each token comes with the cursor behind it, so a
reader that works on a stream still knows where in the text it stands.
-/
namespace MacroScript

/-- Tokens with the cursors behind them, and how they end. -/
inductive TokenStream where
  | token (next : Token) (after : Cursor) (more : TokenStream)
  | finished (stop : Cursor)
  | unterminated (opening : Location) (stop : Cursor)

namespace TokenStream

/-- The stream from a cursor, with illegal characters passed or kept as tokens. -/
def ofCursor (skipping : Bool) (cursor : Cursor) : TokenStream :=
  match _h : cursor.scan skipping with
  | (.unterminated opening, stop) => .unterminated opening stop
  | (.token next, after) =>
      if _hk : next.kind = .finish then .finished after
      else .token next after (ofCursor skipping after)
termination_by cursor.rest.length
decreasing_by exact Cursor.scan_rest_lt _h _hk

def tokens : TokenStream → List Token
  | .token next _ more => next :: more.tokens
  | .finished _ => []
  | .unterminated _ _ => []

def get? : TokenStream → Nat → Option Token
  | .token next _ _, 0 => some next
  | .token _ _ more, position + 1 => more.get? position
  | .finished _, _ => none
  | .unterminated _ _, _ => none

/-- The opening quote of the string that is not closed, if the stream ends with one. -/
def unterminated? : TokenStream → Option Location
  | .token _ _ more => more.unterminated?
  | .finished _ => none
  | .unterminated opening _ => some opening

/-- The cursor at which a stream ends. -/
def stop : TokenStream → Cursor
  | .token _ _ more => more.stop
  | .finished stop => stop
  | .unterminated _ stop => stop

def length : TokenStream → Nat
  | .token _ _ more => more.length + 1
  | .finished _ => 0
  | .unterminated _ _ => 0

@[simp] theorem tokens_length (stream : TokenStream) :
    stream.tokens.length = stream.length := by
  induction stream with
  | token next after more ih => simp [tokens, length, ih]
  | finished => rfl
  | unterminated => rfl

theorem get?_eq_tokens (stream : TokenStream) (position : Nat) :
    stream.get? position = stream.tokens[position]? := by
  induction stream generalizing position with
  | token next after more ih => cases position <;> simp [get?, tokens, ih]
  | finished => rfl
  | unterminated => rfl

end TokenStream
end MacroScript
