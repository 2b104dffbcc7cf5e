import MacroScript.Editor.Index
import MacroScript.Editor.Lookup

/-!
# The documents of an editor

The table of open documents, each with its index, and the answers to an editor's
questions about a document: what a word means, which names can be completed,
which parameters a call takes, and which symbols the document defines. A document
that is not open has no answers. Opening or changing a document publishes its
diagnostics, closing it publishes that there are none.
-/
namespace MacroScript

structure Document where
  text : String
  index : Index

structure Workspace where
  documents : Table Document

structure Range where
  start : Position
  stop : Position
  deriving DecidableEq, Repr

/-- A diagnostic as it is published. -/
structure Remark where
  range : Range
  message : String
  severity : Severity
  source : String
  deriving DecidableEq, Repr

/-- All remarks about one document, in place of those published before. -/
structure Publication where
  uri : String
  remarks : List Remark
  deriving DecidableEq, Repr

inductive NameKind where
  | function
  | var
  deriving DecidableEq, Repr

namespace NameKind

def name : NameKind → String
  | function => "Function"
  | var => "Variable"

def ofSymbol : SymbolKind → NameKind
  | .function => function
  | .var => var

end NameKind

structure Completion where
  label : String
  kind : NameKind
  detail : String
  deriving DecidableEq, Repr

structure Signature where
  label : String
  params : List String
  deriving DecidableEq, Repr

/-- A signature with the parameter to highlight. -/
structure SignatureHelp where
  signature : Signature
  activeParam : Nat
  deriving DecidableEq, Repr

/-- A symbol of a document with the range of its name. -/
structure Outline where
  name : String
  detail : String
  kind : NameKind
  range : Range
  deriving DecidableEq, Repr

def Range.onLine (row column length : Nat) : Range := ⟨⟨row, column⟩, ⟨row, column + length⟩⟩

/-- The name under which diagnostics are published. -/
def Remark.publisher : String := "ember-ls"

/-- A published diagnostic marks one character. -/
def Remark.ofDiagnostic (diagnostic : Diagnostic) : Remark :=
  ⟨.onLine diagnostic.row diagnostic.column 1, diagnostic.message, diagnostic.severity, publisher⟩

namespace Index

/-- What a word means. Builtins come before the document's own names. -/
def hoverText (index : Index) (word : String) : Option String :=
  match Builtin.named? word with
  | some b => some b.signature
  | none =>
      (index.symbols.find? word).map fun symbol =>
        s!"{symbol.definition.signature}: {symbol.definition.kind.name} "
          ++ s!"(defined at {symbol.row + 1}:{symbol.column + 1})"

/-- The names that can be completed: all builtins and the document's own names. -/
def completions (index : Index) : List Completion :=
  Builtin.all.map (fun b => ⟨b.name, .function, b.signature⟩) ++
    index.symbols.entries.map fun entry =>
      ⟨entry.1, .ofSymbol entry.2.definition.kind, entry.2.definition.signature⟩

def splitCommas : List Char → List (List Char)
  | [] => [[]]
  | c :: rest =>
      if c = ',' then [] :: splitCommas rest
      else match splitCommas rest with
        | [] => [[c]]
        | part :: parts => (c :: part) :: parts

/-- What stands between the first opening and the last closing parenthesis. -/
def parenthesized (label : List Char) : List Char :=
  let inside := (label.dropWhile fun c => c != '(').drop 1
  ((inside.reverse.dropWhile fun c => c != ')').drop 1).reverse

def paramLabels (label : String) : List String :=
  ((splitCommas (parenthesized label.toList)).map Text.trimBlanks).filterMap nonempty?

def signatureLabel (index : Index) (callee : String) : Option String :=
  match Builtin.named? callee with
  | some b => some b.signature
  | none =>
      (index.symbols.find? callee).bind fun symbol =>
        match symbol.definition.kind with
        | .function => some symbol.definition.signature
        | .var => none

/-- The signature of a function, builtins first. -/
def signatureFor (index : Index) (callee : String) : Option Signature :=
  (index.signatureLabel callee).map fun label => ⟨label, paramLabels label⟩

def outline (index : Index) : List Outline :=
  index.symbols.entries.map fun entry =>
    { name := entry.1
      detail := entry.2.definition.signature
      kind := .ofSymbol entry.2.definition.kind
      range := .onLine entry.2.row entry.2.column entry.1.length }

end Index

namespace Document

def ofText (text : String) (limit : Int := Settings.defaultParseDepth) : Document :=
  ⟨text, .ofText text limit⟩

def hover (document : Document) (position : Position) : Except Fault (Option String) :=
  (wordAt document.text position).map fun word => word.bind document.index.hoverText

def signatureHelp (document : Document) (position : Position) : Option SignatureHelp :=
  let before := lineBefore document.text position
  (openCallee before).bind fun callee =>
    (document.index.signatureFor callee).map fun signature =>
      ⟨signature, argumentIndex before⟩

end Document

namespace Workspace

def empty : Workspace := ⟨.empty⟩

/-- Open a document or replace its text. The limit on the nesting may be another one each time. -/
def put (workspace : Workspace) (uri text : String) (limit : Int := Settings.defaultParseDepth) :
    Publication × Workspace :=
  let document := Document.ofText text limit
  (⟨uri, document.index.diagnostics.map Remark.ofDiagnostic⟩,
    ⟨workspace.documents.insert uri document⟩)

/-- Close a document, whether or not it is open. -/
def close (workspace : Workspace) (uri : String) : Publication × Workspace :=
  (⟨uri, []⟩, ⟨workspace.documents.erase uri⟩)

def document? (workspace : Workspace) (uri : String) : Option Document :=
  workspace.documents.find? uri

def hover (workspace : Workspace) (uri : String) (position : Position) :
    Except Fault (Option String) :=
  match workspace.document? uri with
  | some document => document.hover position
  | none => .ok none

def completions (workspace : Workspace) (uri : String) : List Completion :=
  match workspace.document? uri with
  | some document => document.index.completions
  | none => []

def signatureHelp (workspace : Workspace) (uri : String) (position : Position) :
    Option SignatureHelp :=
  (workspace.document? uri).bind fun document => document.signatureHelp position

def outline (workspace : Workspace) (uri : String) : Option (List Outline) :=
  (workspace.document? uri).map fun document => document.index.outline

end Workspace
end MacroScript
