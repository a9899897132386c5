import FrontEnd.Grammar.Statement
import FrontEnd.Tree.Item

/-!
# Reading modules

The items of a module, one after the other up to the end of the file. The loops here
read at least one token a turn, so the number of tokens left bounds them.
-/

namespace FrontEnd.Grammar

open Token (Kind Mark Keyword)

/-- The greatest number of parameters of a function. -/
def maxParameters : Nat := 255

/-- Reads parameters up to the closing parenthesis, which is read too. A comma may follow the last
one. `done` holds those before, the last one first. -/
def paramsFrom : Nat → List Param → Parse (List Param)
  | 0, _ => failUnexpected
  | fuel + 1, done => do
    if (← get).kind = .mark .closeParen then
      discard advance
      return done.reverse
    let (token, name) ← simpleIdentifier
    discard <| expect (.mark .colon)
    let type ← typeName
    skipTerminators
    match (← get).kind with
    | .mark .comma =>
      discard advance
      skipTerminators
    | .mark .closeParen => pure ()
    | _ => failExpected "expected `,` or `)`"
    paramsFrom fuel (⟨token, name, type⟩ :: done)

/-- Reads a function from its name on. -/
def function (isPublic : Bool) : Parse Function := do
  let (token, name) ← simpleIdentifier
  discard <| expect (.mark .openParen)
  skipTerminators
  let params ← paramsFrom ((← get).remaining + 1) []
  if params.length > maxParameters then throw ⟨token, .tooManyParameters params.length⟩
  let returnType ←
    if (← get).kind = .mark .colon then do
      discard advance
      typeName
    else pure .void
  skipTerminators
  if (← get).kind ≠ .mark .openCurly then failExpected "expected `:` or `\x7b`"
  discard advance
  let body ← block
  return ⟨token, name, isPublic, params, returnType, 0, none, [], body⟩

/-- Reads a global from its name on. -/
def global (isMutable isPublic : Bool) : Parse Global := do
  let (token, name) ← simpleIdentifier
  discard <| expect (.mark .colon)
  let type ← typeName
  endStatement
  return ⟨token, name, type, isMutable, isPublic, none⟩

/-- Reads selected names up to the closing bracket, which is read too. `done` holds those before, the
last one first. -/
def selectedFrom : Nat → List (Nat × String) → Parse (List (Nat × String))
  | 0, _ => failUnexpected
  | fuel + 1, done => do
    skipTerminators
    let name ← simpleIdentifier
    skipTerminators
    match (← get).kind with
    | .mark .comma =>
      discard advance
      selectedFrom fuel (name :: done)
    | .mark .closeBracket =>
      discard advance
      return (name :: done).reverse
    | _ => failExpected "expected `,` or `]`"

/-- Reads an import, with the names that it selects if a `.` and a bracket follow the path. -/
def imports : Parse Import := do
  let token ← advance
  let c ← get
  if c.kind ≠ .identifier then failExpected "expected a module path"
  discard advance
  let selected ←
    if (← get).kind = .mark .dot then do
      discard advance
      discard <| expect (.mark .openBracket)
      selectedFrom ((← get).remaining + 1) []
    else pure []
  endStatement
  return ⟨token, ⟨c.current.path⟩, selected⟩

/-- Reads a submodule. -/
def submodule : Parse Submodule := do
  let token ← advance
  let (_, name) ← simpleIdentifier
  endStatement
  return ⟨token, name⟩

/-- Reads an item. Only functions and globals can be public. -/
def item : Parse Item := do
  let isPublic := (← get).kind == .keyword .pubKw
  if isPublic then discard advance
  match (← get).kind with
  | .keyword .fnKw =>
    discard advance
    return .function (← function isPublic)
  | .keyword .globalKw =>
    discard advance
    return .global (← global true isPublic)
  | .keyword .constKw =>
    discard advance
    return .global (← global false isPublic)
  | .keyword .importKw =>
    if isPublic then failExpected "expected an item" else return .imports (← imports)
  | .keyword .modKw =>
    if isPublic then failExpected "expected an item" else return .submodule (← submodule)
  | _ => failExpected "expected an item"

/-- Reads items up to the end of the file. `done` holds those before, the last one first. -/
def itemsFrom : Nat → List Item → Parse (List Item)
  | 0, _ => failUnexpected
  | fuel + 1, done => do
    skipTerminators
    if (← get).hasTokens then
      let i ← item
      itemsFrom fuel (i :: done)
    else
      return done.reverse

/-- The items that a list of tokens spells. -/
def items (tokens : List Token) : Except Fault (List Item) :=
  match Cursor.ofTokens? tokens with
  | none => .ok []
  | some c =>
    match itemsFrom (c.remaining + 2) [] c with
    | .ok items _ => .ok items
    | .error fault _ => .error fault

end FrontEnd.Grammar
