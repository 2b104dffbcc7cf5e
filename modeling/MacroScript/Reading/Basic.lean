import MacroScript.Expr.Basic
import MacroScript.Reading.ParseError
import MacroScript.Token.Stream

/-!
# Reading one expression

The grammar is

    expression := number | string | symbol | symbol '(' [expression (',' expression)*] ')'

and a symbol without arguments is followed by `)`, `,` or the end of input. The
reader takes the tokens of a stream one by one. It keeps the calls that are
still open on a stack, innermost first, and a symbol of which it does not know
yet whether it is called; the next token decides that.

Reading ends with an expression, with nothing because the input is exhausted, or
with an error. Each answer says where the next reading starts. After an error
inside an argument of the outermost call that is the place behind the first
token of this argument; after any other error it is behind the last token that
was taken.
-/
namespace MacroScript

/-- A call whose closing parenthesis has not been read: its name, the arguments so far with
the last one first, and whether the next token should start an argument. -/
structure OpenCall where
  name : String
  args : List Expr
  awaiting : Bool
  deriving Repr

namespace OpenCall

def opened (name : String) : OpenCall := ⟨name, [], true⟩

def push (call : OpenCall) (arg : Expr) : OpenCall :=
  { call with args := arg :: call.args, awaiting := false }

def separate (call : OpenCall) : OpenCall := { call with awaiting := true }

def close (call : OpenCall) : Expr := .call call.name call.args.reverse

end OpenCall

/-- How deeply expressions may be nested, and how deep the reader already is. -/
structure Nesting where
  limit : Int
  base : Int
  deriving Repr

/-- How far the reader has come: the open calls, a symbol whose next token is not known yet,
and where reading restarts if the next token is an error inside an argument. -/
structure Reader where
  calls : List OpenCall
  head : Option Token
  resume : Cursor
  deriving Repr

/-- What one token does: it moves the reader on, completes an expression, shows that an
expression was complete before it, or is an error. -/
inductive ReaderStep where
  | next (reader : Reader)
  | complete (result : Expr) (after : Cursor)
  | completeBefore (result : Expr) (after : Cursor)
  | failure (error : ParseError) (resume : Cursor)

inductive Reading where
  | value (result : Expr) (after : Cursor) (more : TokenStream)
  | nothing (stop : Cursor)
  | failure (error : ParseError) (resume : Cursor)

/-- Where the next reading starts. -/
def Reading.cursor : Reading → Cursor
  | .value _ after _ => after
  | .nothing stop => stop
  | .failure _ resume => resume

namespace Token

/-- The most digits that a number literal may have; the largest integer has as many. -/
def maxDigits : Nat := 20

/-- The value of a row of ASCII digits. -/
def digitsValue (digits : List Char) : Nat := Nat.ofDigitChars 10 digits 0

/-- The expression of a number, string or symbol token that is not called. -/
def atom (token : Token) : Except ParseError Expr :=
  match token.kind with
  | .number =>
      let digits := token.text.toList
      if digits.length ≤ maxDigits ∧ digitsValue digits < Expr.intBound then
        .ok (.int (digitsValue digits).toUInt64)
      else .error ⟨token.location, .intOverflow⟩
  | .string => .ok (.string token.text)
  | _ => .ok (.var token.text)

/-- The error about a token that follows a symbol and neither ends nor calls it. -/
def adjacentError (token : Token) : ParseError :=
  match token.kind with
  | .illegal => ⟨token.location, .illegalToken token.text⟩
  | _ => ⟨token.location, .adjacentExpressions⟩

end Token

namespace Reader

def start (resume : Cursor) : Reader := ⟨[], none, resume⟩

/-- Where reading restarts if a token that was just taken is an error. -/
def behind (reader : Reader) (after : Cursor) : Cursor :=
  if reader.calls.length ≤ 1 then after else reader.resume

/-- Why an expression may not start here, if it may not. -/
def refusal (nesting : Nesting) (reader : Reader) (token : Token) : Option ParseCause :=
  match reader.calls with
  | [] => none
  | call :: outer =>
      if !call.awaiting then some (.missingSeparator token.text)
      else if nesting.limit ≤ nesting.base + outer.length then
        some (.nestedTooDeep nesting.limit)
      else none

/-- Hand an expression to the innermost open call, or out of the reader if there is none. -/
def deliver (reader : Reader) (result : Expr) (after : Cursor) : ReaderStep :=
  match reader.calls with
  | [] => .complete result after
  | call :: outer => .next ⟨call.push result :: outer, none, reader.behind after⟩

/-- Take a token that starts an expression. -/
def startExpr (nesting : Nesting) (reader : Reader) (token : Token) (after : Cursor) : ReaderStep :=
  match reader.refusal nesting token with
  | some cause => .failure ⟨token.location, cause⟩ (reader.behind after)
  | none =>
      if token.kind = .symbol then .next ⟨reader.calls, some token, reader.behind after⟩
      else match token.atom with
        | .error error => .failure error (reader.behind after)
        | .ok result => reader.deliver result after

/-- Take a token where no symbol waits for it. -/
def takeFresh (nesting : Nesting) (reader : Reader) (token : Token) (after : Cursor) :
    ReaderStep :=
  let failure (cause : ParseCause) : ReaderStep :=
    .failure ⟨token.location, cause⟩ (reader.behind after)
  match token.kind, reader.calls with
  | .symbol, _ | .number, _ | .string, _ => reader.startExpr nesting token after
  | .illegal, _ | .finish, _ => failure (.illegalToken token.text)
  | _, [] => failure (.strayToken token.text)
  | .openParen, _ => failure .openParenInCall
  | .comma, call :: outer =>
      if call.awaiting then failure .commaForArgument
      else .next ⟨call.separate :: outer, none, reader.behind after⟩
  | .closeParen, call :: outer =>
      if call.awaiting && !call.args.isEmpty then failure .parenForArgument
      else { reader with calls := outer }.deliver call.close after

def take (nesting : Nesting) (reader : Reader) (token : Token) (after : Cursor) : ReaderStep :=
  match reader.head with
  | none => reader.takeFresh nesting token after
  | some symbol =>
      match token.kind with
      | .openParen =>
          .next ⟨.opened symbol.text :: reader.calls, none,
            if reader.calls.isEmpty then after else reader.resume⟩
      | .closeParen | .comma =>
          match reader.calls with
          | [] => .completeBefore (.var symbol.text) reader.resume
          | call :: outer =>
              takeFresh nesting ⟨call.push (.var symbol.text) :: outer, none, reader.resume⟩
                token after
      | _ => .failure token.adjacentError reader.resume

def finish (reader : Reader) (stop : Cursor) : Reading :=
  match reader.calls, reader.head with
  | [], none => .nothing stop
  | [], some symbol => .value (.var symbol.text) reader.resume (.finished stop)
  | _ :: _, _ => .failure ⟨stop.location, .unclosedCall⟩ (reader.behind stop)

/-- Take a string that is not closed; behind a symbol it is seen but not taken. -/
def breakOff (reader : Reader) (opening : Location) (stop : Cursor) : Reading :=
  .failure ⟨opening, .unterminatedString⟩
    (if reader.head.isSome then reader.resume else reader.behind stop)

/-- Take tokens until an expression is complete. -/
def read (nesting : Nesting) (reader : Reader) : TokenStream → Reading
  | .finished stop => reader.finish stop
  | .unterminated opening stop => reader.breakOff opening stop
  | .token token after more =>
      match reader.take nesting token after with
      | .next reader => read nesting reader more
      | .complete result after => .value result after more
      | .completeBefore result before => .value result before (.token token after more)
      | .failure error resume => .failure error resume

theorem read_more_le {nesting : Nesting} {reader : Reader} {stream more : TokenStream}
    {result : Expr} {after : Cursor}
    (h : reader.read nesting stream = .value result after more) :
    more.length ≤ stream.length := by
  induction stream generalizing reader with
  | finished stop =>
      simp only [read, finish] at h
      split at h <;> simp_all
  | unterminated => simp [read, breakOff] at h
  | token token behind rest ih =>
      simp only [read] at h
      split at h
      · exact Nat.le_succ_of_le (ih h)
      · simp only [Reading.value.injEq] at h
        simp [← h.2.2, TokenStream.length]
      · simp only [Reading.value.injEq] at h
        simp [← h.2.2]
      · simp at h

theorem takeFresh_ne_completeBefore (nesting : Nesting) (reader : Reader) (token : Token)
    (after before : Cursor) (result : Expr) :
    reader.takeFresh nesting token after ≠ .completeBefore result before := by
  have hd : ∀ (reader : Reader) (e : Expr),
      reader.deliver e after ≠ .completeBefore result before := by
    intro reader e
    unfold deliver
    split <;> simp
  have hb : reader.startExpr nesting token after ≠ .completeBefore result before := by
    unfold startExpr
    split
    · simp
    · split
      · simp
      · split
        · simp
        · exact hd reader _
  unfold takeFresh
  split <;> first
    | exact hb
    | (split <;> first | exact hd _ _ | simp)
    | simp

theorem read_start_more_lt {nesting : Nesting} {resume : Cursor} {stream more : TokenStream}
    {result : Expr} {after : Cursor}
    (h : (start resume).read nesting stream = .value result after more) :
    more.length < stream.length := by
  cases stream with
  | finished stop => simp [read, finish, start] at h
  | unterminated => simp [read, breakOff] at h
  | token token behind rest =>
      have hfresh : (start resume).take nesting token behind
          = (start resume).takeFresh nesting token behind := rfl
      simp only [read, hfresh] at h
      split at h
      · exact Nat.lt_succ_of_le (read_more_le h)
      · simp only [Reading.value.injEq] at h
        simp [← h.2.2, TokenStream.length]
      · rename_i hstep
        exact (takeFresh_ne_completeBefore _ _ _ _ _ _ hstep).elim
      · simp at h

end Reader
end MacroScript
