import FrontEnd.Token.Basic

/-!
# The cursor

A place in the tokens of a file. A cursor always stands on a token and never moves
past the last one, so looking at tokens cannot fail. `Parse` is a computation that
moves a cursor and may end with a fault; the cursor then stays where the fault was
found.
-/

namespace FrontEnd.Grammar

open Token (Kind Mark Keyword)

/-- A place in a list of tokens. -/
structure Cursor where
  /-- The index of the current token. -/
  index : Nat
  current : Token
  rest : List Token
  deriving DecidableEq, Repr

namespace Cursor

/-- The start of a list of tokens. -/
def ofTokens? : List Token → Option Cursor
  | [] => none
  | t :: rest => some ⟨0, t, rest⟩

/-- The kind of the current token. -/
def kind (c : Cursor) : Kind := c.current.kind

/-- The number of tokens after the current one. -/
def remaining (c : Cursor) : Nat := c.rest.length

/-- The place after the current token. -/
def next (c : Cursor) : Cursor :=
  match c.rest with
  | [] => c
  | t :: rest => ⟨c.index + 1, t, rest⟩

/-- The token `n` places on, or the last one. -/
def peek (c : Cursor) (n : Nat) : Token := ((c.current :: c.rest)[n]?).getD (c.rest.getLastD c.current)

/-- The kind of the next token. -/
def nextKind (c : Cursor) : Kind := (c.peek 1).kind

/-- The first place at or after token `t` that is no terminator. -/
def pastTerminators (index : Nat) (t : Token) : List Token → Cursor
  | [] => ⟨index, t, []⟩
  | u :: rest =>
    if t.kind = .terminator then pastTerminators (index + 1) u rest else ⟨index, t, u :: rest⟩

/-- The first place from here on that is no terminator. -/
def skipTerminators (c : Cursor) : Cursor := pastTerminators c.index c.current c.rest

/-- Whether there is anything left to read. -/
def hasTokens (c : Cursor) : Bool := c.kind ≠ .endOfFile

/-- A fault at the current token. -/
def fault (c : Cursor) (cause : Cause) : Fault := ⟨c.index, cause⟩

/-- The fault that the current token does not belong here. A file that ends here has left a block
open. -/
def unexpected (c : Cursor) : Fault :=
  c.fault (if c.kind = .endOfFile then .unterminatedBlock else .unexpectedToken c.current.text)

/-- The fault that the current token does not belong here, with what would. -/
def unexpectedDetailed (c : Cursor) (detail : String) : Fault :=
  c.fault (if c.kind = .endOfFile then .unterminatedBlock
    else .unexpectedTokenDetailed c.current.text detail)

end Cursor

/-- A computation that reads tokens. -/
abbrev Parse := EStateM Fault Cursor

/-- Moves past the current token and gives its index. -/
def advance : Parse Nat := do
  let c ← get
  set c.next
  return c.index

/-- Moves past terminators. -/
def skipTerminators : Parse Unit := modify Cursor.skipTerminators

/-- Fails because the current token does not belong here. -/
def failUnexpected {α : Type} : Parse α := do throw (← get).unexpected

/-- Fails because the current token does not belong here, with what would. -/
def failExpected {α : Type} (detail : String) : Parse α := do
  throw ((← get).unexpectedDetailed detail)

/-- Moves past a token of the given kind, or fails as told. -/
def expectOr (kind : Kind) (fault : Cursor → Fault) : Parse Nat := do
  let c ← get
  if c.kind = kind then advance else throw (fault c)

/-- Moves past a token of the given kind. -/
def expect (kind : Kind) : Parse Nat := expectOr kind Cursor.unexpected

/-- Reads a name without dots, and gives the index of its token. -/
def simpleIdentifier : Parse (Nat × String) := do
  let c ← get
  match c.current.shape with
  | .identifier path =>
    if path.length = 1 then return (← advance, c.current.text)
    else throw (c.fault (.expectedSimpleIdentifier c.current.text))
  | _ => failExpected "expected identifier"

/-- Ends a statement or an item. A terminator is read; the end of a block or of the file is left in
place. -/
def endStatement : Parse Unit := do
  let c ← get
  match c.kind with
  | .terminator => discard advance
  | .mark .closeCurly | .endOfFile => return
  | _ => throw c.unexpected

end FrontEnd.Grammar
