import MacroScript.Function.Builtin
import MacroScript.Reading.Program
import MacroScript.Settings
import MacroScript.Table
import MacroScript.Text.Blank
import MacroScript.Text.Quoted

/-!
# The index of a document

What can be known about a program without evaluating it: the names that its
top-level forms define, and diagnostics. A `let` form defines a variable and a
`define` form a function; each is indexed under its name at the place where the
name stands. Reading stops at the first parse error, which is the first
diagnostic. The others name the characters that the language ignores although
they are not blank.
-/
namespace MacroScript

inductive SymbolKind where
  | var
  | function
  deriving DecidableEq, Repr

namespace SymbolKind

def name : SymbolKind → String
  | var => "var"
  | function => "function"

end SymbolKind

/-- A name defined by a top-level form. -/
structure Definition where
  name : String
  kind : SymbolKind
  params : List String
  deriving DecidableEq, Repr

/-- A definition and where its name stands. -/
structure IndexedSymbol where
  definition : Definition
  row : Nat
  column : Nat
  deriving DecidableEq, Repr

inductive Severity where
  | error
  | info
  deriving DecidableEq, Repr

namespace Severity

def name : Severity → String
  | error => "error"
  | info => "info"

end Severity

/-- A remark about one place of a document. -/
structure Diagnostic where
  row : Nat
  column : Nat
  message : String
  severity : Severity
  deriving DecidableEq, Repr

structure Index where
  symbols : Table IndexedSymbol
  diagnostics : List Diagnostic

namespace Definition

/-- A call of the function with its parameters, or the name of the variable. -/
def signature (definition : Definition) : String :=
  match definition.kind with
  | .function =>
      let params := String.intercalate ", " definition.params
      s!"{definition.name}({params})"
  | .var => definition.name

/-- The variables among the arguments of a call of `args`. -/
def paramsOf : List Expr → List String
  | .call "args" params :: _ => params.filterMap Expr.asVar?
  | _ => []

/-- The definition that a form makes, if it makes one. -/
def ofExpr? : Expr → Option Definition
  | .call "let" (.var name :: _) => some ⟨name, .var, []⟩
  | .call "define" (.var name :: rest) => some ⟨name, .function, paramsOf rest⟩
  | _ => none

end Definition

namespace TopLevel

/-- Where the first argument of a call stands, if it is a name. -/
def argumentLocation? (item : TopLevel) : Option Location :=
  match item.tokens.get? 2 with
  | some token => if token.kind = .symbol then some token.location else none
  | none => none

def symbol? (item : TopLevel) : Option IndexedSymbol :=
  (Definition.ofExpr? item.expr).bind fun definition =>
    item.argumentLocation?.map fun place => ⟨definition, place.row, place.column⟩

end TopLevel

namespace Diagnostic

def ofParseError (error : ParseError) : Diagnostic :=
  ⟨error.location.row, error.location.column, error.message, .error⟩

/-- The diagnostic about a token, if it is a character that is ignored and not blank. -/
def ofIgnored? (token : Token) : Option Diagnostic :=
  if token.kind = .illegal && !token.text.toList.all Text.isBlank then
    some ⟨token.location.row, token.location.column,
      s!"character {Text.quoted token.text} is ignored", .info⟩
  else none

end Diagnostic

namespace Index

/-- Add a symbol; a later definition of a name takes the place of an earlier one. -/
def addSymbol (symbols : Table IndexedSymbol) (symbol : IndexedSymbol) : Table IndexedSymbol :=
  symbols.insert symbol.definition.name symbol

def symbolsOf (program : Program) : Table IndexedSymbol :=
  (program.items.filterMap TopLevel.symbol?).foldl addSymbol .empty

/-- The characters of a text that are ignored although they are not blank. -/
def ignoredIn (text : String) : List Diagnostic :=
  (TokenStream.ofCursor false (.ofText text none)).tokens.filterMap Diagnostic.ofIgnored?

/-- The index of a text, read under a limit on the nesting. -/
def ofText (text : String) (limit : Int := Settings.defaultParseDepth) : Index :=
  let program := Program.ofText limit text none
  { symbols := symbolsOf program
    diagnostics := (program.error.map Diagnostic.ofParseError).toList ++ ignoredIn text }

def hasErrors (index : Index) : Bool :=
  index.diagnostics.any fun diagnostic => diagnostic.severity = .error

end Index
end MacroScript
