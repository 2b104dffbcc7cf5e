import MacroScript.Action
import MacroScript.Conversion
import MacroScript.Reading.Basic
import MacroScript.Text.Numeral

/-!
# Reading by descent

The grammar once more, read in the plain way. Scanning moves a cursor character
by character, and the reader of a call starts another reader for each of its
arguments, on a cursor of its own which it then takes over. Everything that can
go wrong on this way is written down as going wrong: to pass the end of the text
or to look at a character there, a row of digits that is no integer, a reader
that is started for an argument and finds nothing, a loop that stands still.

Reading by descent gives the answers of the reader that keeps its open calls on
a stack, so that none of these accidents happens. This is not stated here. How
much of the machine's own stack the descent takes is not modelled; the limit on
the nesting is assumed to fit it.
-/
namespace MacroScript.Descent

/-- What a round of a loop comes to. -/
inductive Round (α β : Type) where
  | again (state : α)
  | done (result : β)

/-- A loop would go on for ever. -/
def standstill : Fault := .foreign (.raised .runtime "the cursor does not move on")

/-- Go on round after round. A loop ends for sure if its cursor moves on in each of them. -/
def loop {α β : Type} (round : α → Action Cursor (Round α β)) (state : α) : Action Cursor β :=
  fun cursor =>
    match round state cursor with
    | .error fault after => .error fault after
    | .ok (.done result) after => .ok result after
    | .ok (.again state) after =>
        if _h : after.rest.length < cursor.rest.length then loop round state after
        else .error standstill after
termination_by cursor => cursor.rest.length

/-! ### Scanning -/

def character : Action Cursor Char := fun cursor =>
  match cursor.current? with
  | some c => .ok c cursor
  | none => .error (.foreign .beyondText) cursor

def advance : Action Cursor Unit := fun cursor =>
  match cursor.advance? with
  | some next => .ok () next
  | none => .error (.endOfInput cursor.location) cursor

/-- The class of the character ahead; at the end of the text none is looked at. -/
def kindAhead : Action Cursor TokenKind := do
  if (← get).atEnd then return .finish
  else return .ofChar (← character)

/-- Pass an ignored character, or stop before another one. -/
def ignoredRound (_ : Unit) : Action Cursor (Round Unit TokenKind) := do
  let kind ← kindAhead
  if kind = .illegal then
    advance
    return .again ()
  else return .done kind

def passIgnored : Action Cursor TokenKind := loop ignoredRound ()

/-- Pass a character of a run, and go on if the next one is of the class too. -/
def runRound (kind : TokenKind) (_ : Unit) : Action Cursor (Round Unit Unit) := do
  advance
  if (← get).atEnd then return .done ()
  else if .ofChar (← character) = kind then return .again ()
  else return .done ()

/-- Pass one character, and then others of the class. -/
def passRun (kind : TokenKind) : Action Cursor Unit := loop (runRound kind) ()

/-- Pass the opening quote or a character behind it, and go on unless the next one is a quote. The
cursor before the closing quote is kept. -/
def stringRound (opening : Location) (_ : Unit) : Action Cursor (Round Unit Cursor) := do
  match ← advance.attempt with
  | .error (.endOfInput _) => throw (.unterminatedString opening)
  | .error fault => throw fault
  | .ok () =>
      if (← get).atEnd then throw (.unterminatedString opening)
      else if .ofChar (← character) = TokenKind.string then
        let closing ← get
        advance
        return .done closing
      else return .again ()

/-- Pass a quote and everything up to the next one, and that one too. -/
def passString (opening : Location) : Action Cursor Cursor := loop (stringRound opening) ()

/-- The characters between two places of a text, without some of the first ones. -/
def slice (start stop : Cursor) (without : Nat) : String :=
  String.ofList ((start.rest.take (stop.offset - start.offset)).drop without)

/-- Take the token at a cursor whose next character has the kind. -/
def takeToken (kind : TokenKind) : Action Cursor Token := do
  let start ← get
  match kind with
  | .symbol | .number =>
      passRun kind
      return ⟨kind, slice start (← get) 0, start.location⟩
  | .string =>
      let closing ← passString start.location
      return ⟨kind, slice start closing 1, start.location⟩
  | .finish => return ⟨kind, "", start.location⟩
  | _ =>
      advance
      return ⟨kind, slice start (← get) 0, start.location⟩

/-- Take the next token, with or without passing the ignored characters before it. -/
def nextToken (skipping : Bool) : Action Cursor Token := do
  takeToken (← if skipping then passIgnored else kindAhead)

def peekToken : Action Cursor Token := do
  let mark := (← get).snapshot
  (nextToken true).ensuring (modify (·.restore mark))

/-! ### Reading -/

/-- The answer of a reader. An error is a place and a message. -/
inductive Answer where
  | value (result : Expr)
  | nothing
  | error (place : Location) (message : String)
  deriving DecidableEq

/-- What is said of digits that are no integer. -/
def invalidDigits : String := "could not parse int: InvalidCharacter"

/-- What is said where an argument was due and nothing is found. -/
def argumentMissing : String := "found unexpected end of file"

def Answer.because (place : Location) (cause : ParseCause) : Answer := .error place cause.message

def integer (token : Token) (place : Location) : Action Cursor Answer :=
  if Token.maxDigits < token.text.length then return .because place .intOverflow
  else match Text.integer? token.text with
    | none => return .error place invalidDigits
    | some n =>
        if Expr.intBound ≤ n then return .because place .intOverflow
        else return .value (← .ofExcept (Expr.ofInt n))

/-- Let another reader act on a cursor of its own. -/
def onFork {α : Type} (start : Cursor) (action : Action Cursor α) : Action Cursor (α × Cursor) :=
  fun cursor =>
    match action start with
    | .ok result stop => .ok (result, stop) cursor
    | .error fault _ => .error fault cursor

section Calls

-- The reader of an argument is there only if the nesting limit leaves room for it.
variable (nesting : Nesting) (inner : nesting.base < nesting.limit → Action Cursor Answer)

/-- Let a reader start where the token of an argument does, and take its cursor over. -/
def takeArgument (hroom : nesting.base < nesting.limit) (args : List Expr) (start : Cursor) :
    Action Cursor (Round (List Expr × Bool) Answer) := do
  let (answer, stop) ← onFork start (inner hroom)
  match answer with
  | .nothing => return .done (.error stop.location argumentMissing)
  | .error place message => return .done (.error place message)
  | .value arg =>
      modify (·.restore stop.snapshot)
      return .again (args ++ [arg], false)

/-- Go on in a call with a token, which was taken at the cursor. A call remembers its arguments so
far, and whether another one should follow. -/
def takeInCall (name : String) (args : List Expr) (awaiting : Bool) (start : Cursor)
    (token : Token) : Action Cursor (Round (List Expr × Bool) Answer) := do
  let because (cause : ParseCause) := Round.done (.because token.location cause)
  match token.kind with
  | .symbol | .number | .string =>
      if !awaiting then return because (.missingSeparator token.text)
      else if h : nesting.base < nesting.limit then takeArgument nesting inner h args start
      else return because (.nestedTooDeep nesting.limit)
  | .comma => return if awaiting then because .commaForArgument else .again (args, true)
  | .closeParen =>
      return if awaiting && !args.isEmpty then because .parenForArgument
        else .done (.value (.call name args))
  | .openParen => return because .openParenInCall
  | .finish => return because .unclosedCall
  | .illegal => return because (.illegalToken token.text)

/-- Read an argument of a call, a comma, or the closing parenthesis. -/
def argumentRound (name : String) (state : List Expr × Bool) :
    Action Cursor (Round (List Expr × Bool) Answer) := do
  let start ← get
  let token ← nextToken true
  takeInCall nesting inner name state.1 state.2 start token

def arguments (name : String) : Action Cursor Answer :=
  loop (argumentRound nesting inner name) ([], true)

def symbol (token : Token) : Action Cursor Answer := do
  let peeked ← peekToken
  match peeked.kind with
  | .closeParen | .comma | .finish => return .value (.var token.text)
  | .illegal => return .because peeked.location (.illegalToken peeked.text)
  | .openParen =>
      let _ ← nextToken true
      arguments nesting inner token.text
  | _ => return .because peeked.location .adjacentExpressions

def expression : Action Cursor Answer := do
  let _ ← passIgnored
  let place := (← get).location
  let token ← nextToken true
  match token.kind with
  | .symbol => symbol nesting inner token
  | .number => integer token place
  | .string => return .value (.string token.text)
  | .finish => return .nothing
  | .illegal => return .because token.location (.illegalToken token.text)
  | _ => return .because place (.strayToken token.text)

end Calls

/-- Make a string that is not closed an error like any other. -/
def caught (action : Action Cursor Answer) : Action Cursor Answer := do
  match ← action.attempt with
  | .ok answer => return answer
  | .error (.unterminatedString opening) => return .because opening .unterminatedString
  | .error fault => throw fault

def nextExpr (nesting : Nesting) : Action Cursor Answer :=
  caught (expression nesting fun _ => nextExpr ⟨nesting.limit, nesting.base + 1⟩)
termination_by (nesting.limit - nesting.base).toNat
decreasing_by omega

end MacroScript.Descent
