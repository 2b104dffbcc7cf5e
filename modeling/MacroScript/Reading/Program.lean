import MacroScript.Reading.Basic

/-!
# Reading whole texts

The first expression of a text, the next expression at a cursor, and all
expressions of a text up to the first error. Each expression of a program is
kept with the stream of tokens that starts at it, so that an index of the
program can point at its parts.
-/
namespace MacroScript

/-- The next expression at a cursor. -/
def Cursor.readExpr (nesting : Nesting) (cursor : Cursor) : Reading :=
  (Reader.start cursor).read nesting (.ofCursor true cursor)

/-- An expression of a program and the tokens from its first one on. -/
structure TopLevel where
  expr : Expr
  tokens : TokenStream

/-- The expressions of a text, and the error at which reading stopped if there is one. -/
structure Program where
  items : List TopLevel
  error : Option ParseError

namespace Program

/-- Read a stream to its end or to the first error. -/
def ofStream (nesting : Nesting) (cursor : Cursor) (stream : TokenStream) : Program :=
  match _h : (Reader.start cursor).read nesting stream with
  | .value result after more =>
      let program := ofStream nesting after more
      { program with items := ⟨result, stream⟩ :: program.items }
  | .nothing _ => ⟨[], none⟩
  | .failure error _ => ⟨[], some error⟩
termination_by stream.length
decreasing_by exact Reader.read_start_more_lt _h

def ofCursor (nesting : Nesting) (cursor : Cursor) : Program :=
  ofStream nesting cursor (.ofCursor true cursor)

def ofText (limit : Int) (text : String) (sourceName : Option String) : Program :=
  ofCursor ⟨limit, 0⟩ (.ofText text sourceName)

def exprs (program : Program) : List Expr := program.items.map (·.expr)

end Program
end MacroScript
