import FrontEnd.Grammar.Cursor
import FrontEnd.Grammar.Pending

/-!
# Reading expressions and statements

Expressions, conditionals, blocks and statements contain one another, so they are
read together. The argument `fuel` bounds the depth of the recursion; every turn
reads a token after at most three calls, so `Cursor.fuel` is always enough, and the
readers without `From` in their names take that much.
-/

namespace FrontEnd.Grammar

open Token (Kind Mark Keyword)

/-- Enough fuel to read all that is left. -/
def Cursor.fuel (c : Cursor) : Nat := 4 * (c.remaining + 2)

/-- The fault that a complaint about the current token amounts to. -/
def Complaint.fault (c : Cursor) : Complaint → Fault
  | missingOperand => c.unexpectedDetailed "expected an operand"
  | missingOperator => c.unexpectedDetailed "expected an operator"
  | mismatched => c.fault .mismatchedParenthesis
  | unexpected => c.unexpected

/-- The value, or a fault at the current token. -/
def orComplain {α : Type} : Except Complaint α → Parse α
  | .ok a => return a
  | .error e => do throw (e.fault (← get))

/-- Whether an expression that ends at the given kind of token, if it has an end of its own, ends
here. -/
def endsExpression (stop : Option Kind) (kind : Kind) : Bool :=
  kind == .terminator || kind == .mark .closeCurly || kind == .endOfFile || stop == some kind

/-- Ends an expression. Its own end is required if it has one; that and a terminator are read. -/
def endExpression (stop : Option Kind) (p : Progress) : Parse Expr := do
  let c ← get
  if p.isOpen then failExpected "expected an operand"
  match Progress.finish p.output p.pending with
  | .error paren => throw ⟨paren, .unclosedParenthesis⟩
  | .ok e =>
    if let some wanted := stop then
      if c.kind ≠ wanted then failExpected s!"expected {wanted.name}"
    if c.kind = .terminator ∨ stop = some c.kind then
      discard advance
    return e

/-- Requires that an expression is not empty. -/
def nonEmpty (read : Parse Expr) : Parse Expr := do
  let start ← get
  let e ← read
  if e.isEmpty then throw (start.unexpectedDetailed "expected an expression")
  return e

/-- The name of a type. -/
def typeName : Parse ValueType := do
  let c ← get
  if c.kind ≠ .identifier then failExpected "expected a type name"
  match ValueType.ofName? c.current.text with
  | some type => do
    discard advance
    return type
  | none => throw (c.fault (.unknownType c.current.text))

/-- The end of a `break`: how many loops it leaves. -/
def exitAmount : Parse Nat := do
  if (← get).kind ≠ .mark .star then return 1
  discard advance
  match (← get).current.toInt? with
  | some amount => do
    discard advance
    return amount
  | none => failExpected "expected a loop count"

mutual

/-- Reads on with an expression. -/
def expressionFrom : Nat → Option Kind → Progress → Parse Expr
  | 0, _, _ => failUnexpected
  | fuel + 1, stop, p => do
    let c ← get
    if c.kind = .terminator ∧ p.isOpen then
      discard advance
      expressionFrom fuel stop p
    else if endsExpression stop c.kind then
      endExpression stop p
    else
      match c.current.shape with
      | .keyword .ifKw =>
        if !p.wantsOperand then throw (Complaint.missingOperator.fault c)
        discard advance
        let branch ← conditionalFrom fuel c.index
        expressionFrom fuel stop (← orComplain (p.operand (.cond branch)))
      | .identifier path =>
        if c.nextKind = .mark .openParen then
          let p ← orComplain (p.opening (.call c.index path (c.index + 1) 0) true)
          discard advance
          discard advance
          expressionFrom fuel stop p
        else
          let p ← orComplain (p.feed c.index (.identifier path))
          discard advance
          expressionFrom fuel stop p
      | shape =>
        let p ← orComplain (p.feed c.index shape)
        discard advance
        expressionFrom fuel stop p

/-- Reads a conditional whose `if` has been read, with the `else` that may follow on a later line. -/
def conditionalFrom : Nat → Nat → Parse Conditional
  | 0, _ => failUnexpected
  | fuel + 1, token => do
    let condition ← nonEmpty (expressionFrom fuel (some (.mark .openCurly)) .start)
    let onTrue ← blockFrom fuel []
    let c := (← get).skipTerminators
    if c.kind ≠ .keyword .elseKw then return .ofBlocks token condition onTrue []
    set c.next
    match (← get).kind with
    | .keyword .ifKw =>
      let index ← advance
      let branch ← conditionalFrom fuel index
      return .ofBlocks token condition onTrue [.cond branch]
    | .mark .openCurly =>
      discard advance
      let onFalse ← blockFrom fuel []
      return .ofBlocks token condition onTrue onFalse
    | _ => failExpected "expected `if` or `\x7b`"

/-- Reads statements up to the end of the block, which is read too. `done` holds those before, the
last one first. -/
def blockFrom : Nat → List Statement → Parse Block
  | 0, _ => failUnexpected
  | fuel + 1, done => do
    skipTerminators
    match (← get).kind with
    | .mark .closeCurly =>
      discard advance
      return done.reverse
    | .endOfFile => failUnexpected
    | _ =>
      let s ← statementFrom fuel
      blockFrom fuel (s :: done)

/-- Reads a statement. What follows a name decides between a declaration, an assignment and an
expression. -/
def statementFrom : Nat → Parse Statement
  | 0 => failUnexpected
  | fuel + 1 => do
    let c ← get
    let token := c.index
    match c.kind with
    | .identifier =>
      match c.nextKind with
      | .mark .colon =>
        let (token, name) ← simpleIdentifier
        discard <| expect (.mark .colon)
        match (← get).kind with
        | .mark .assign =>
          discard advance
          let value ← nonEmpty (expressionFrom fuel none .start)
          return .declare token name none value none
        | .identifier =>
          let type ← typeName
          if (← get).kind = .mark .assign then
            discard advance
            let value ← nonEmpty (expressionFrom fuel none .start)
            return .declare token name (some type) value none
          else
            endStatement
            return .declare token name (some type) [] none
        | .terminator | .mark .closeCurly | .endOfFile =>
          endStatement
          return .declare token name none [] none
        | _ => failExpected "expected `=` or a type"
      | .mark .assign =>
        discard advance
        discard advance
        let value ← nonEmpty (expressionFrom fuel none .start)
        return .assign token ⟨token, c.current.path, none⟩ value
      | kind =>
        let compound := match kind with
          | .mark m => Operator.ofCompound? m
          | _ => none
        match compound with
        | some o =>
          discard advance
          let mark ← advance
          let value ← nonEmpty (expressionFrom fuel none .start)
          return .assign token ⟨token, c.current.path, none⟩
            (.var token c.current.path none :: value ++ [.op mark o])
        | none =>
          let value ← nonEmpty (expressionFrom fuel none .start)
          return .eval token value
    | .keyword .returnKw =>
      discard advance
      return .ret token (← expressionFrom fuel none .start)
    | .keyword .ifKw =>
      match ← nonEmpty (expressionFrom fuel none .start) with
      | [.cond branch] => return .cond branch
      | value => return .eval token value
    | .keyword .whileKw =>
      discard advance
      if (← get).kind = .mark .openCurly then
        discard advance
        return .loop token [.bool token true] (← blockFrom fuel [])
      else
        let condition ← nonEmpty (expressionFrom fuel (some (.mark .openCurly)) .start)
        return .loop token condition (← blockFrom fuel [])
    | .keyword .breakKw =>
      discard advance
      let amount ← exitAmount
      endStatement
      return .exit token amount
    | .keyword .continueKw =>
      discard advance
      endStatement
      return .next token
    | _ =>
      let value ← nonEmpty (expressionFrom fuel none .start)
      return .eval token value

end

/-- Reads an expression, which may be empty. It ends at a terminator, at the end of a block or of
the file, or at a token of kind `stop`, which must then be there. -/
def expression (stop : Option Kind) : Parse Expr := fun c => expressionFrom c.fuel stop .start c

/-- Reads an expression that has a value. -/
def valueExpression (stop : Option Kind) : Parse Expr := nonEmpty (expression stop)

/-- Reads a conditional whose `if`, the token at the given index, has been read. -/
def conditional (token : Nat) : Parse Conditional := fun c => conditionalFrom c.fuel token c

/-- Reads the statements of a block, whose `{` has been read, and its end. -/
def block : Parse Block := fun c => blockFrom c.fuel [] c

/-- Reads a statement. -/
def statement : Parse Statement := fun c => statementFrom c.fuel c

end FrontEnd.Grammar
