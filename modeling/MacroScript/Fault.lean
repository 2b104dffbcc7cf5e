import MacroScript.Expr.Written
import MacroScript.Function.Builtin
import MacroScript.HostValue
import MacroScript.Reading.ParseError
import MacroScript.Text.Template

/-!
# Faults

Why an operation of the library fails. A fault is a cause; its class, its
message and the text for the user of a chat host are read off the cause. The
classes form a hierarchy: the errors of evaluation are the ones a host may
recover from, and every one of them has a text for the user. Faults outside the
hierarchy are those of the host or of a misused interface; inside a host
function that is held to the protocol the ordinary ones among them are wrapped
into a host error.
-/
namespace MacroScript

inductive EvalClass where
  | general
  | unknownVariable
  | unknownFunction
  | invalidCast
  | arity
  | argumentName
  | argumentValue
  | shadowing
  | host
  | recursionLimit
  deriving DecidableEq, Repr

inductive ErrorClass where
  | base
  | endOfFile
  | parse
  | unterminatedString
  | outOfMemory
  | eval (kind : EvalClass)
  deriving DecidableEq, Repr

namespace EvalClass

def name : EvalClass → String
  | general => "EmberEvalError"
  | unknownVariable => "EmberUnknownVariable"
  | unknownFunction => "EmberUnknownFn"
  | invalidCast => "EmberInvalidCast"
  | arity => "EmberArityError"
  | argumentName => "EmberInvalidArgumentName"
  | argumentValue => "EmberInvalidArgumentValue"
  | shadowing => "EmberShadowing"
  | host => "EmberHostError"
  | recursionLimit => "EmberRecursionLimit"

/-- The text for the user of a chat host. -/
def userMessage : EvalClass → String
  | general => "error: evaluation failed"
  | unknownVariable => "error: found unknown variable"
  | unknownFunction => "error: found unknown function"
  | invalidCast => "error: found invalid cast"
  | arity => "error: invalid number of arguments were supplied"
  | argumentName => "error: invalid argument name was found"
  | argumentValue => "error: invalid argument value"
  | shadowing => "error: found argument shadowing"
  | host => "error: a host function failed"
  | recursionLimit => "error: evaluation nested too deeply"

end EvalClass

namespace ErrorClass

/-- All classes, each behind its parent. -/
def all : List ErrorClass :=
  [.base, .endOfFile, .parse, .unterminatedString, .outOfMemory, .eval .general,
    .eval .unknownVariable, .eval .unknownFunction, .eval .invalidCast, .eval .arity,
    .eval .argumentName, .eval .argumentValue, .eval .shadowing, .eval .host,
    .eval .recursionLimit]

def name : ErrorClass → String
  | base => "EmberError"
  | endOfFile => "EmberEndOfFile"
  | parse => "EmberSyntaxError"
  | unterminatedString => "EmberUnterminatedString"
  | outOfMemory => "EmberOutOfMemory"
  | eval kind => kind.name

/-- The class above a class; the base stands at the top. -/
def parent? : ErrorClass → Option ErrorClass
  | base => none
  | eval .general => some base
  | eval _ => some (eval .general)
  | _ => some base

def userMessage? : ErrorClass → Option String
  | eval kind => some kind.userMessage
  | _ => none

def named? (name : String) : Option ErrorClass := all.find? fun c => c.name == name

end ErrorClass

/-- The classes of faults that are not the library's own. The first ones are those that the library
raises itself or tells apart; a class derived from exhausted memory counts as that. Those that end
the program are no ordinary failures: `SystemExit`, `KeyboardInterrupt`, `GeneratorExit` and what a
host derives beside the ordinary ones. -/
inductive ForeignClass where
  | value
  | runtime
  | key
  | memory
  | index
  | type
  | accessor
  /-- Any other class of ordinary failures, by its name. -/
  | other (name : String)
  /-- A class of faults that end the program, by its name. -/
  | ending (name : String)
  deriving DecidableEq, Repr

namespace ForeignClass

def name : ForeignClass → String
  | value => "ValueError"
  | runtime => "RuntimeError"
  | key => "KeyError"
  | memory => "MemoryError"
  | index => "IndexError"
  | type => "TypeError"
  | accessor => "AttributeError"
  | other name | ending name => name

/-- The classes that have a name of their own here. -/
def all : List ForeignClass := [.value, .runtime, .key, .memory, .index, .type, .accessor]

def named? (name : String) : Option ForeignClass := all.find? fun c => c.name == name

/-- The protocol for host functions wraps the ordinary failures. Exhausted memory is none of the
function's doing, and what ends the program has to come through. -/
def isWrapped : ForeignClass → Bool
  | memory | ending _ => false
  | _ => true

end ForeignClass

/-- The faults that are not the library's own. -/
inductive Foreign where
  | beyondText
  | missingArgument
  | closedBuffer
  | notKept
  | bindingVanished (name : String)
  | intTooLarge (n : Int)
  | unwritable (problem : Unwritable)
  | notAnInt (typeName : String)
  | notAText (typeName : String)
  | noExpression (typeName : String)
  | notBindable (name : String) (value : HostValue)
  | notRenderable (value : HostValue)
  | noAccessor (typeName accessor : String)
  | noLength (typeName : String)
  | unfilled (error : Text.Template.Error)
  | raised (kind : ForeignClass) (text : String)
  deriving Repr

namespace Foreign

def kind : Foreign → ForeignClass
  | beyondText | missingArgument => .index
  | closedBuffer | notKept | intTooLarge _ | unwritable _ => .value
  | bindingVanished _ => .runtime
  | notAnInt _ | notAText _ | noExpression _ | notBindable _ _ | notRenderable _
  | noLength _ => .type
  | noAccessor _ _ => .accessor
  | unfilled (.noValueAt _) => .index
  | unfilled (.noValueNamed _) => .key
  | unfilled _ => .value
  | raised kind _ => kind

/-- The wording of each fault. A missing key is shown quoted. -/
def message : Foreign → String
  | beyondText => "string index out of range"
  | missingArgument => "tuple index out of range"
  | closedBuffer => "I/O operation on closed file"
  | notKept => "list.remove(x): x not in list"
  | bindingVanished name => s!"binding {name} vanished before it could be removed"
  | intTooLarge n => s!"{n} does not fit in an unsigned 64-bit integer"
  | unwritable problem => problem.message
  | notAnInt typeName => s!"Int expects an int, got {typeName}"
  | notAText typeName => s!"String expects a str, got {typeName}"
  | noExpression typeName => s!"Cannot convert {typeName} to an expression"
  | notBindable name value => s!"Cannot bind {name} to non-expression {value.describe}"
  | notRenderable value => s!"Cannot render {value.describe}"
  | noAccessor typeName accessor => s!"'{typeName}' object has no attribute '{accessor}'"
  | noLength typeName => s!"object of type '{typeName}' has no len()"
  | unfilled error => error.message
  | raised .key text => Text.quoted text
  | raised _ text => text

end Foreign

inductive EvalError where
  | unknownVariable (name : String)
  | unknownFunction (name : String)
  | notAnInt (got : Expr)
  | notAString (got : Expr)
  | notAVariable (got : Expr)
  | notACall (got : Expr)
  | notPrintable (got : HostValue)
  | notABoolean (text : String)
  | builtinArity (builtin : Builtin)
  | definedArity (name : String) (expected got : Nat)
  | notAFunctionName (got : Expr)
  | notParameters (got : Expr)
  | notAParameter (got : Expr)
  | repeatedParameter (name : String)
  | shadowing (name : String)
  | hostFailed (name : String) (reason : Foreign)
  | hostReturned (name typeName : String)
  | recursionLimit (limit : Int)
  | raised (kind : EvalClass) (text : String)
  deriving Repr

namespace EvalError

def kind : EvalError → EvalClass
  | unknownVariable _ => .unknownVariable
  | unknownFunction _ => .unknownFunction
  | notAnInt _ | notAString _ | notAVariable _ | notACall _ | notPrintable _ => .invalidCast
  | notABoolean _ => .argumentValue
  | builtinArity _ | definedArity _ _ _ => .arity
  | notAFunctionName _ | notParameters _ | notAParameter _ | repeatedParameter _ =>
      .argumentName
  | shadowing _ => .shadowing
  | hostFailed _ _ | hostReturned _ _ => .host
  | recursionLimit _ => .recursionLimit
  | raised kind _ => kind

/-- The wording of each error. -/
def message : EvalError → String
  | unknownVariable name => s!"Cannot lookup unbound variable {name}"
  | unknownFunction name => s!"Cannot call unknown function {name}"
  | notAnInt got => s!"expected an int, got {got.describe}"
  | notAString got => s!"expected a string, got {got.describe}"
  | notAVariable got => s!"expected a variable, got {got.describe}"
  | notACall got => s!"expected a function call, got {got.describe}"
  | notPrintable got => s!"echo cannot print {got.describe}"
  | notABoolean text => s!"expected \"true\" or \"false\", got {Text.quoted text}"
  | builtinArity builtin => builtin.arityMessage
  | definedArity name expected got => s!"{name} expects {expected} arguments, got {got}"
  | notAFunctionName got => s!"function name must be a bare name, got {got.describe}"
  | notParameters got =>
      s!"define expects its parameters as args(p1, ...), got {got.describe}"
  | notAParameter got => s!"parameter {got.describe} is not a name"
  | repeatedParameter name => s!"parameter {name} appears more than once"
  | shadowing name => s!"{name} is already bound in the calling scope"
  | hostFailed name reason => s!"{name}: {reason.message}"
  | hostReturned name typeName => s!"{name} returned {typeName}, expected an expression"
  | recursionLimit limit => s!"evaluation exceeded the maximum depth of {limit}"
  | raised _ text => text

end EvalError

/-- A parse error in a host's own words: a template and the text that it is filled in to. -/
structure Report where
  template : String
  text : String
  fill_template : Text.Template.fill template = .ok text
  deriving Repr

/-- Everything that can go wrong. A host may report a parse error by a template, and an
unterminated string by a place in its own words. It may also raise a fault of its own whose text
cannot be had: asking for the text fails in turn. -/
inductive Fault where
  | eval (error : EvalError)
  | scopeExhausted (scope : String) (needed limit : Int)
  | malformed (error : ParseError)
  | reported (report : Report)
  | endOfInput (location : Location)
  | unterminatedString (opening : Location)
  | unterminatedAt (place : String)
  | raised (kind : ErrorClass) (text : String)
  | foreign (fault : Foreign)
  | unspeakable (kind : ForeignClass) (failure : Fault)
  deriving Repr

namespace Fault

/-- The class of a fault of the library's own. -/
def errorClass? : Fault → Option ErrorClass
  | eval error => some (.eval error.kind)
  | scopeExhausted _ _ _ => some .outOfMemory
  | malformed _ | reported _ => some .parse
  | endOfInput _ => some .endOfFile
  | unterminatedString _ | unterminatedAt _ => some .unterminatedString
  | raised kind _ => some kind
  | foreign _ | unspeakable _ _ => none

def name : Fault → String
  | eval error => error.kind.name
  | scopeExhausted _ _ _ => ErrorClass.outOfMemory.name
  | malformed _ | reported _ => ErrorClass.parse.name
  | endOfInput _ => ErrorClass.endOfFile.name
  | unterminatedString _ | unterminatedAt _ => ErrorClass.unterminatedString.name
  | raised kind _ => kind.name
  | foreign fault => fault.kind.name
  | unspeakable kind _ => kind.name

/-- The wording of each fault, or of what comes of asking for it. -/
def message : Fault → String
  | eval error => error.message
  | scopeExhausted scope needed limit => s!"{scope} scope exhausted: {needed} > {limit}"
  | malformed error => error.written
  | reported report => report.text
  | endOfInput location => s!"end of input at {location.written}"
  | unterminatedString opening => s!"{opening.written}: unterminated string literal"
  | unterminatedAt place => s!"{place}: unterminated string literal"
  | raised _ text => text
  | foreign fault => fault.message
  | unspeakable _ failure => failure.message

/-- The text for the user of a chat host, which the errors of evaluation have. -/
def userMessage? : Fault → Option String
  | eval error => some error.kind.userMessage
  | _ => none

/-- The fault behind a wrapped one. -/
def reason? : Fault → Option Foreign
  | eval (.hostFailed _ reason) => some reason
  | _ => none

/-- The fault that a host makes of a class of the library and a text. A parse error takes the text
for a template, so making it fails where the template cannot be filled in; an unterminated string
takes it for the place. -/
def ofClass (kind : ErrorClass) (text : String) : Fault :=
  match kind with
  | .eval kind => .eval (.raised kind text)
  | .parse =>
      match h : Text.Template.fill text with
      | .ok filled => .reported ⟨text, filled, h⟩
      | .error error => .foreign (.unfilled error)
  | .unterminatedString => .unterminatedAt text
  | kind => .raised kind text

end Fault
end MacroScript
