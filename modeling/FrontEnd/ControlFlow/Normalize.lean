import FrontEnd.ControlFlow.Emission
import FrontEnd.ControlFlow.Returns
import FrontEnd.Tree.Item

/-!
# Flat control flow

Takes conditionals out of expressions: each becomes a statement that stores its value
in a temporary, and operands that are evaluated before it are put into temporaries
too, so that the order of evaluation stays. On the way, values that a block must have,
loop exits and returns are checked.
-/

namespace FrontEnd.ControlFlow

open Emit

/-- What becomes of the value at the end of a block. -/
inductive Tail
  | drop
  /-- It is stored in a temporary. -/
  | store (temp : String)
  /-- It is what the function returns. -/
  | give
  deriving DecidableEq, Repr

/-- The statement that does with a value what the tail says. -/
def Tail.statement (tail : Tail) (token : Nat) (value : Expr) : Statement :=
  match tail with
  | drop => .eval token value
  | store temp => .assign token ⟨token, [temp], none⟩ value
  | give => .ret token value

mutual

/-- The token at which a value is missing, if a block whose last statement is this one must have a
value. A statement that leaves the block needs none. -/
def statementGap? (token : Nat) : Statement → Option Nat
  | .eval _ _ | .ret _ _ | .exit _ _ | .next _ => none
  | .cond (.mk inner _ onTrue onFalse _ _) =>
    if onFalse.isEmpty then some token
    else match blockGap? inner onTrue with
      | some gap => some gap
      | none => blockGap? inner onFalse
  | .declare _ _ _ _ _ | .assign _ _ _ | .loop _ _ _ => some token

/-- The token at which a value is missing, if the block must have a value. -/
def blockGap? (token : Nat) : List Statement → Option Nat
  | [] => some token
  | s :: rest => if rest.isEmpty then statementGap? token s else blockGap? token rest

end

/-- The token at which a value is missing, if a conditional must have a value. -/
def conditionalGap? (c : Conditional) : Option Nat :=
  if c.onFalse.isEmpty then some c.token
  else match blockGap? c.token c.onTrue with
    | some gap => some gap
    | none => blockGap? c.token c.onFalse

/-- Hands out the temporary for the value of a conditional, if the conditional has a value. -/
def reserve (c : Conditional) : Emit String := do
  let temp ← fresh
  emit (.declare c.token temp none [] none)
  match conditionalGap? c with
  | some gap => fail ⟨gap, .missingBranchValue⟩
  | none => return temp

/-- Puts an operand where statements that come before the rest of the expression cannot change it. A
literal and a temporary are safe where they are. -/
def park (token : Nat) (operand : Expr) : Emit Expr := do
  match operand with
  | [n] => if n.isLiteral || isTemporary n then return [n]
  | _ => pure ()
  let temp ← fresh
  emit (.declare token temp none operand none)
  return [.var token [temp] none]

/-- Parks the operands on the stack in the order in which they were evaluated. The last one comes
first in the list. -/
def spill (token : Nat) : List Expr → Emit (List Expr)
  | [] => return []
  | operand :: below => do
    let below ← spill token below
    let operand ← park token operand
    return operand :: below

/-- The nodes of the operands on a stack, of which the last one comes first. -/
def nodesOnStack (operands : List Expr) : Expr := operands.reverse.flatten

/-- The stack after a node has taken its operands. -/
def pushNode (operands : List Expr) (n : Node) : List Expr :=
  (nodesOnStack (operands.take n.operands) ++ [n]) :: operands.drop n.operands

/-- A loop that is left as soon as its condition, which `before` prepares, does not hold. -/
def exitUnless (token : Nat) (condition : Expr) : Statement :=
  .cond (.ofBlocks token (condition ++ [.op token .not]) [.exit token 1] [])

mutual

/-- Takes the conditionals out of an expression. `operands` are the operands on the stack, the last
one first. -/
def hoistFrom (depth : Nat) (operands : List Expr) : List Node → Emit Expr
  | [] => return nodesOnStack operands
  | .cond c :: rest => do
    let operands ← spill c.token operands
    let temp ← reserve c
    flattenConditional depth (.store temp) c
    hoistFrom depth ([.var c.token [temp] none] :: operands) rest
  | n :: rest => hoistFrom depth (pushNode operands n) rest

/-- Writes a conditional as a statement. -/
def flattenConditional (depth : Nat) (tail : Tail) : Conditional → Emit Unit
  | .mk token condition onTrue onFalse trueReturns falseReturns => do
    let condition ← hoistFrom depth [] condition
    let onTrue ← capture (flattenBlock depth tail onTrue)
    let onFalse ← capture (flattenBlock depth tail onFalse)
    emit (.cond (.mk token condition onTrue onFalse trueReturns falseReturns))

/-- Writes a statement that is inside `depth` loops. A conditional whose value is dropped needs none.
A loop whose condition holds a conditional evaluates it at the start of every turn. -/
def flattenStatement (depth : Nat) (tail : Tail) : Statement → Emit Unit
  | .declare token name type value slot => do
    emit (.declare token name type (← hoistFrom depth [] value) slot)
  | .assign token target value => do
    emit (.assign token target (← hoistFrom depth [] value))
  | .eval token value => do
    match tail, value with
    | .drop, [.cond c] => flattenConditional depth .drop c
    | _, value => emit (tail.statement token (← hoistFrom depth [] value))
  | .ret token value => do
    emit (.ret token (← hoistFrom depth [] value))
  | .cond c => flattenConditional depth tail c
  | .loop token condition body => do
    let body ← capture (flattenBlock (depth + 1) .drop body)
    if Expr.containsConditional condition then
      let test ← capture do
        emit (exitUnless token (← hoistFrom (depth + 1) [] condition))
      emit (.loop token [.bool token true] (test ++ body))
    else
      emit (.loop token condition body)
  | .exit token amount =>
    if amount = 0 ∨ depth < amount then fail ⟨token, .invalidBreak amount depth⟩
    else emit (.exit token amount)
  | .next token =>
    if depth = 0 then fail ⟨token, .continueOutsideLoop⟩ else emit (.next token)

/-- Writes the statements of a block. -/
def flattenBlock (depth : Nat) (tail : Tail) : List Statement → Emit Unit
  | [] => return
  | s :: rest => do
    flattenStatement depth (if rest.isEmpty then tail else .drop) s
    flattenBlock depth tail rest

end

/-- Takes the conditionals out of an expression outside of any loop. -/
def hoist (e : Expr) : Emit Expr := hoistFrom 0 [] e

/-- Flattens a function. One that returns a value gives the value at the end of its body, and must
return on every path. -/
def flattenFunction (f : Function) : Emit Function := do
  let tail := if f.returnType.isVoid then .drop else .give
  let body ← capture (flattenBlock 0 tail f.body)
  let (body, returns) := markBlock body
  if f.returnType.isVoid || returns then return { f with body }
  else fail ⟨f.token, .missingReturn f.name⟩

/-- Flattens the functions among some items. -/
def flattenItems : List Item → Emit (List Item)
  | [] => return []
  | .function f :: rest => do
    let f ← flattenFunction f
    return .function f :: (← flattenItems rest)
  | i :: rest => return i :: (← flattenItems rest)

/-- The items of a module with flat control flow. -/
def normalize (items : List Item) : Except Fault (List Item) := ((flattenItems items).run 0).result

end FrontEnd.ControlFlow
