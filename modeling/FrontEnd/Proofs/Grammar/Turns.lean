import FrontEnd.Grammar.Item
import Mathlib.Logic.Function.Iterate

/-!
# The turns of the readers

What the readers of expressions, conditionals, blocks and statements do in one turn of
their recursion, over what they call, and the same for the loops over parameters, selected
names and items. With fuel for one turn more, a reader takes its turn over itself with the
fuel that is left.
-/

namespace FrontEnd.Grammar

open Token (Kind Mark Keyword)

/-- What the readers of expressions and statements call of one another. -/
structure Readers where
  expression : Option Kind → Progress → Parse Expr
  conditional : Nat → Parse Conditional
  block : List Statement → Parse Block
  statement : Parse Statement

/-- The readers with some fuel. -/
def readers (fuel : Nat) : Readers where
  expression := expressionFrom fuel
  conditional := conditionalFrom fuel
  block := blockFrom fuel
  statement := statementFrom fuel

namespace Readers

variable (r : Readers)

/-- Reads an expression that may not be empty. -/
def value (stop : Option Kind) : Parse Expr := nonEmpty (r.expression stop .start)

/-- Reads a statement that is an expression and starts at a token. -/
def evaluation (token : Nat) : Parse Statement := do
  let value ← r.value none
  return .eval token value

/-- Reads a declaration, from its name on. -/
def declaration : Parse Statement := do
  let (token, name) ← simpleIdentifier
  discard <| expect (.mark .colon)
  match (← get).kind with
  | .mark .assign =>
    discard advance
    let value ← r.value none
    return .declare token name none value none
  | .identifier =>
    let type ← typeName
    if (← get).kind = .mark .assign then
      discard advance
      let value ← r.value none
      return .declare token name (some type) value none
    else
      endStatement
      return .declare token name (some type) [] none
  | .terminator | .mark .closeCurly | .endOfFile =>
    endStatement
    return .declare token name none [] none
  | _ => failExpected "expected `=` or a type"

/-- One turn of all readers, over what they call. -/
def turn : Readers where
  expression stop p := do
    let c ← get
    if c.kind = .terminator ∧ p.isOpen then
      discard advance
      r.expression stop p
    else if endsExpression stop c.kind then
      endExpression stop p
    else
      match c.current.shape with
      | .keyword .ifKw =>
        if !p.wantsOperand then throw (Complaint.missingOperator.fault c)
        discard advance
        let branch ← r.conditional c.index
        r.expression stop (← orComplain (p.operand (.cond branch)))
      | .identifier path =>
        if c.nextKind = .mark .openParen then
          let p ← orComplain (p.opening (.call c.index path (c.index + 1) 0) true)
          discard advance
          discard advance
          r.expression stop p
        else
          let p ← orComplain (p.feed c.index (.identifier path))
          discard advance
          r.expression stop p
      | shape =>
        let p ← orComplain (p.feed c.index shape)
        discard advance
        r.expression stop p
  conditional token := do
    let condition ← r.value (some (.mark .openCurly))
    let onTrue ← r.block []
    let c := (← get).skipTerminators
    if c.kind ≠ .keyword .elseKw then return .ofBlocks token condition onTrue []
    set c.next
    match (← get).kind with
    | .keyword .ifKw =>
      let index ← advance
      let branch ← r.conditional index
      return .ofBlocks token condition onTrue [.cond branch]
    | .mark .openCurly =>
      discard advance
      let onFalse ← r.block []
      return .ofBlocks token condition onTrue onFalse
    | _ => failExpected "expected `if` or `\x7b`"
  block done := do
    skipTerminators
    match (← get).kind with
    | .mark .closeCurly =>
      discard advance
      return done.reverse
    | .endOfFile => failUnexpected
    | _ =>
      let s ← r.statement
      r.block (s :: done)
  statement := do
    let c ← get
    let token := c.index
    match c.kind with
    | .identifier =>
      match c.nextKind with
      | .mark .colon => r.declaration
      | .mark .assign =>
        discard advance
        discard advance
        let value ← r.value none
        return .assign token ⟨token, c.current.path, none⟩ value
      | kind =>
        let compound := match kind with
          | .mark m => Operator.ofCompound? m
          | _ => none
        match compound with
        | some o =>
          discard advance
          let mark ← advance
          let value ← r.value none
          return .assign token ⟨token, c.current.path, none⟩
            (.var token c.current.path none :: value ++ [.op mark o])
        | none => r.evaluation token
    | .keyword .returnKw =>
      discard advance
      return .ret token (← r.expression none .start)
    | .keyword .ifKw =>
      match ← r.value none with
      | [.cond branch] => return .cond branch
      | value => return .eval token value
    | .keyword .whileKw =>
      discard advance
      if (← get).kind = .mark .openCurly then
        discard advance
        return .loop token [.bool token true] (← r.block [])
      else
        let condition ← r.value (some (.mark .openCurly))
        return .loop token condition (← r.block [])
    | .keyword .breakKw =>
      discard advance
      let amount ← exitAmount
      endStatement
      return .exit token amount
    | .keyword .continueKw =>
      discard advance
      endStatement
      return .next token
    | _ => r.evaluation token

end Readers

/-- With one unit of fuel more, the readers take one turn more. -/
theorem readers_succ (fuel : Nat) : readers (fuel + 1) = (readers fuel).turn := rfl

theorem readers_eq_iterate (fuel : Nat) : readers fuel = Readers.turn^[fuel] (readers 0) := by
  induction fuel with
  | zero => rfl
  | succ fuel ih => rw [readers_succ, ih, Function.iterate_succ_apply']

/-! ## Loops -/

/-- One turn of the loop over parameters. -/
def paramsTurn (read : List Param → Parse (List Param)) (done : List Param) :
    Parse (List Param) := do
  if (← get).kind = .mark .closeParen then
    discard advance
    return done.reverse
  let (token, name) ← simpleIdentifier
  discard <| expect (.mark .colon)
  let type ← typeName
  skipTerminators
  match (← get).kind with
  | .mark .comma =>
    discard advance
    skipTerminators
  | .mark .closeParen => pure ()
  | _ => failExpected "expected `,` or `)`"
  read (⟨token, name, type⟩ :: done)

/-- One turn of the loop over selected names. -/
def selectedTurn (read : List (Nat × String) → Parse (List (Nat × String)))
    (done : List (Nat × String)) : Parse (List (Nat × String)) := do
  skipTerminators
  let name ← simpleIdentifier
  skipTerminators
  match (← get).kind with
  | .mark .comma =>
    discard advance
    read (name :: done)
  | .mark .closeBracket =>
    discard advance
    return (name :: done).reverse
  | _ => failExpected "expected `,` or `]`"

/-- One turn of the loop over items. -/
def itemsTurn (read : List Item → Parse (List Item)) (done : List Item) : Parse (List Item) := do
  skipTerminators
  if (← get).hasTokens then
    let i ← item
    read (i :: done)
  else
    return done.reverse

theorem paramsFrom_eq_iterate (fuel : Nat) :
    paramsFrom fuel = paramsTurn^[fuel] (paramsFrom 0) := by
  induction fuel with
  | zero => rfl
  | succ fuel ih =>
    rw [Function.iterate_succ_apply', ← ih]
    rfl

theorem selectedFrom_eq_iterate (fuel : Nat) :
    selectedFrom fuel = selectedTurn^[fuel] (selectedFrom 0) := by
  induction fuel with
  | zero => rfl
  | succ fuel ih =>
    rw [Function.iterate_succ_apply', ← ih]
    rfl

theorem itemsFrom_eq_iterate (fuel : Nat) :
    itemsFrom fuel = itemsTurn^[fuel] (itemsFrom 0) := by
  induction fuel with
  | zero => rfl
  | succ fuel ih =>
    rw [Function.iterate_succ_apply', ← ih]
    rfl

end FrontEnd.Grammar
