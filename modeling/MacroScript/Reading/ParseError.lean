import MacroScript.Source.Location

/-!
# Parse errors

Why a text cannot be read, and where. Malformed text is never an exceptional
outcome of reading: an error is one of the three answers of the reader.
-/
namespace MacroScript

inductive ParseCause where
  | unterminatedString
  | intOverflow
  | strayToken (text : String)
  | adjacentExpressions
  | missingSeparator (text : String)
  | nestedTooDeep (limit : Int)
  | commaForArgument
  | parenForArgument
  | openParenInCall
  | unclosedCall
  | illegalToken (text : String)
  deriving DecidableEq, Repr

namespace ParseCause

def message : ParseCause → String
  | unterminatedString => "unterminated string literal"
  | intOverflow => "could not parse int: Overflow"
  | strayToken text => s!"expression cannot start with '{text}'"
  | adjacentExpressions => "two non-function-calls cannot follow each other"
  | missingSeparator text =>
      s!"tried to parse argument `{text}` as function separator or delimiter"
  | nestedTooDeep limit => s!"expression nesting exceeds maximum depth of {limit}"
  | commaForArgument => "tried to parse function argument as a ','"
  | parenForArgument => "tried to parse function argument as a ')'"
  | openParenInCall => "found unexpected token in function call args: '('"
  | unclosedCall => "expected ')' to close function arguments"
  | illegalToken text => s!"found illegal token: {text}"

end ParseCause

/-- A cause and the place that a diagnostic points at. -/
structure ParseError where
  location : Location
  cause : ParseCause
  deriving DecidableEq, Repr

namespace ParseError

def message (error : ParseError) : String := error.cause.message

def written (error : ParseError) : String :=
  s!"{error.location.written}: error: {error.message}"

end ParseError
end MacroScript
