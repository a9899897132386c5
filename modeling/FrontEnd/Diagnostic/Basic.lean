import FrontEnd.Text.Position
import FrontEnd.Text.Quoted

/-!
# Diagnostics

Why a source is rejected, and where. A `Cause` carries what its wording needs; the
wording itself is in `Cause.message`, which names the fault, and `Cause.tip?`, which
tells the reader what to look for.
-/

namespace FrontEnd

open Text (Position quoted)

/-- Why a source is rejected. -/
inductive Cause
  | unrecognisedToken (text : String)
  | numberOutOfRange (text : String)
  | unexpectedToken (text : String)
  | unexpectedTokenDetailed (text detail : String)
  | unterminatedBlock
  | mismatchedParenthesis
  | unclosedParenthesis
  | expectedSimpleIdentifier (identifier : String)
  | tooManyParameters (count : Nat)
  | unknownType (name : String)
  | functionAlreadyDeclared (name : String) (arity : Nat)
  | globalAlreadyDeclared (name : String)
  | variableAlreadyDeclared (name : String)
  | unresolvedIdentifier (identifier : String)
  | moduleNotFound (path : String)
  | invalidModuleName (name : String)
  | circularDependency (path : String)
  | missingBranchValue
  | missingReturn (function : String)
  | invalidBreak (amount depth : Nat)
  | continueOutsideLoop
  deriving DecidableEq, Repr, Inhabited

/-- The part of the language's rules that a source breaks. -/
inductive Category
  | lexical
  | grammatical
  | declaration
  | resolution
  | circularDependency
  | controlFlow
  deriving DecidableEq, Repr

namespace Category

/-- The name that a reader is shown. -/
def name : Category → String
  | lexical => "Lexical"
  | grammatical => "Syntax"
  | declaration => "Declaration"
  | resolution => "Resolution"
  | circularDependency => "CircularDependency"
  | controlFlow => "ControlFlow"

end Category

namespace Cause

/-- The part of the language's rules that the cause belongs to. -/
def category : Cause → Category
  | unrecognisedToken _ | numberOutOfRange _ => .lexical
  | unexpectedToken _ | unexpectedTokenDetailed _ _ | unterminatedBlock
  | mismatchedParenthesis | unclosedParenthesis | expectedSimpleIdentifier _
  | tooManyParameters _ | unknownType _ => .grammatical
  | functionAlreadyDeclared _ _ | globalAlreadyDeclared _
  | variableAlreadyDeclared _ => .declaration
  | unresolvedIdentifier _ | moduleNotFound _ | invalidModuleName _ => .resolution
  | circularDependency _ => .circularDependency
  | missingBranchValue | missingReturn _ | invalidBreak _ _ | continueOutsideLoop => .controlFlow

/-- The name of the cause, the same for all details. -/
def name : Cause → String
  | unrecognisedToken _ => "UnrecognisedToken"
  | numberOutOfRange _ => "NumberParseError"
  | unexpectedToken _ => "UnexpectedToken"
  | unexpectedTokenDetailed _ _ => "UnexpectedTokenDetailed"
  | unterminatedBlock => "UnterminatedBlock"
  | mismatchedParenthesis => "MismatchedParenthesis"
  | unclosedParenthesis => "UnclosedParenthesis"
  | expectedSimpleIdentifier _ => "ExpectedSimpleIdentifier"
  | tooManyParameters _ => "TooManyParameters"
  | unknownType _ => "UnknownType"
  | functionAlreadyDeclared _ _ => "FunctionAlreadyDeclared"
  | globalAlreadyDeclared _ => "GlobalAlreadyDeclared"
  | variableAlreadyDeclared _ => "VariableAlreadyDeclared"
  | unresolvedIdentifier _ => "UnresolvedIdentifier"
  | moduleNotFound _ => "ModuleNotFound"
  | invalidModuleName _ => "InvalidModuleName"
  | circularDependency _ => "CircularDependency"
  | missingBranchValue => "MissingBranchValue"
  | missingReturn _ => "MissingReturn"
  | invalidBreak _ _ => "InvalidBreak"
  | continueOutsideLoop => "ContinueOutsideLoop"

/-- The fault in one line. Text from the source is quoted, a type name is not. -/
def message : Cause → String
  | unrecognisedToken text => s!"unrecognised token: {quoted text}"
  | numberOutOfRange text => s!"error parsing number: {quoted text}"
  | unexpectedToken text => s!"unexpected token: {quoted text}"
  | unexpectedTokenDetailed text detail => s!"unexpected token ({quoted detail}): {quoted text}"
  | unterminatedBlock => "unterminated block"
  | mismatchedParenthesis => "mismatched parenthesis"
  | unclosedParenthesis => "unclosed parenthesis"
  | expectedSimpleIdentifier identifier =>
    s!"expected simple identifier, found {quoted identifier}"
  | tooManyParameters count => s!"too many parameters: {count}"
  | unknownType name => s!"unknown type {name} found"
  | functionAlreadyDeclared name arity =>
    s!"function {quoted name} with {arity} parameters already declared"
  | globalAlreadyDeclared name => s!"global {quoted name} already declared"
  | variableAlreadyDeclared name => s!"variable {quoted name} already declared"
  | unresolvedIdentifier identifier => s!"couldn't resolve identifier {quoted identifier}"
  | moduleNotFound path => s!"module {quoted path} could not be found"
  | invalidModuleName name => s!"{quoted name} is not a proper module name"
  | circularDependency path => s!"circular dependency on module {quoted path}"
  | missingBranchValue => "conditional expression branch has no value"
  | missingReturn function => s!"function {quoted function} does not return on all paths"
  | invalidBreak amount depth => s!"cannot break {amount} loops from depth {depth}"
  | continueOutsideLoop => "continue outside of a loop"

/-- What a reader should look for. An unrecognised token speaks for itself. -/
def tip? : Cause → Option String
  | unrecognisedToken _ => none
  | numberOutOfRange text => some s!"Invalid number: `{text}`, is it above the integer limit?"
  | unexpectedToken text => some s!"Unexpected token: `{text}`, did you miss a semicolon?"
  | unexpectedTokenDetailed text detail => some s!"Unexpected token: `{text}`, {detail}"
  | unterminatedBlock => some "Reached end of file, is a `\x7d` missing?"
  | mismatchedParenthesis => some "Found `)` or `,` without a matching `(`"
  | unclosedParenthesis => some "Expression ended before `(` was closed"
  | expectedSimpleIdentifier identifier =>
    some s!"`{identifier}` cannot be bound here, use a name without `.`"
  | tooManyParameters count => some s!"Functions take at most 255 parameters, found {count}"
  | unknownType name => some s!"Unknown type `{name}` found"
  | functionAlreadyDeclared name arity =>
    some s!"Function `{name}` taking {arity} arguments already declared"
  | globalAlreadyDeclared name => some s!"Global `{name}` already declared"
  | variableAlreadyDeclared name => some s!"Variable `{name}` already declared in this scope"
  | unresolvedIdentifier identifier => some s!"Couldn't resolve `{identifier}`"
  | moduleNotFound path => some s!"Module `{path}` could not be found"
  | invalidModuleName name => some s!"`{name}` is not a proper identifier"
  | circularDependency path =>
    some s!"Module `{path}` is still being compiled, imports form a cycle"
  | missingBranchValue =>
    some "Conditional used as a value needs an `else` and a value in every branch"
  | missingReturn function => some s!"Function `{function}` does not return a value on every path"
  | invalidBreak amount depth =>
    some s!"Cannot break out of {amount} loops, only {depth} enclosing"
  | continueOutsideLoop => some "`continue` used outside of a loop"

/-- The cause in the first line of a report: its name, and its tip if it has one. -/
def headline (cause : Cause) : String :=
  match cause.tip? with
  | none => s!"Error: {cause.name}"
  | some tip => s!"Error: {cause.name} ({tip})"

end Cause

/-- A cause at a place in a file. -/
structure Diagnostic where
  cause : Cause
  position : Position
  deriving DecidableEq, Repr, Inhabited

/-- A cause at a token of the file that is being worked on, by the token's index. -/
structure Fault where
  token : Nat
  cause : Cause
  deriving DecidableEq, Repr, Inhabited

end FrontEnd
