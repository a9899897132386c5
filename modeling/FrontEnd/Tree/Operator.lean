import FrontEnd.Token.Kind
import FrontEnd.Tree.ValueType

/-!
# Operators

The operators of expressions, how tightly they bind, and the marks that they are
written with. `-` and `/` stand for a binary operator or, where no operand comes
before them, for a prefix one.
-/

namespace FrontEnd

/-- An operator of an expression. -/
inductive Operator
  | neg | not | inv
  | mul | div | mod
  | add | sub
  | lsh | rsh
  | lt | gt | leq | geq
  | eq | neq
  | band | xor | bor
  | and | or
  deriving DecidableEq, Repr

namespace Operator

/-- Every operator. -/
def all : List Operator :=
  [neg, not, inv, mul, div, mod, add, sub, lsh, rsh, lt, gt, leq, geq, eq, neq, band, xor, bor,
    and, or]

theorem mem_all (o : Operator) : o ∈ all := by cases o <;> decide

/-- The short name of an operator. -/
def name : Operator → String
  | neg => "neg"
  | not => "not"
  | inv => "inv"
  | mul => "mul"
  | div => "div"
  | mod => "mod"
  | add => "add"
  | sub => "sub"
  | lsh => "lsh"
  | rsh => "rsh"
  | lt => "lt"
  | gt => "gt"
  | leq => "leq"
  | geq => "geq"
  | eq => "eq"
  | neq => "neq"
  | band => "band"
  | xor => "xor"
  | bor => "bor"
  | and => "and"
  | or => "or"

/-- A prefix operator takes one operand, and stands before it. -/
def isPrefixOp : Operator → Bool
  | neg | not | inv => true
  | _ => false

/-- The number of operands. -/
def arity (o : Operator) : Nat := if o.isPrefixOp then 1 else 2

/-- An operator whose right operand need not be evaluated if the left one decides. -/
def isLogical : Operator → Bool
  | and | or => true
  | _ => false

/-- The type of the operator's value. -/
def resultType : Operator → ValueType
  | not | and | or | eq | neq | gt | lt | geq | leq => .bool
  | neg | inv | add | sub | mul | div | mod | band | bor | xor | lsh | rsh => .number

/-- How tightly the operator binds: a higher one binds its operands first. -/
def precedence : Operator → Nat
  | neg | not | inv => 10
  | mul | div | mod => 9
  | add | sub => 8
  | lsh | rsh => 7
  | leq | geq | lt | gt => 6
  | eq | neq => 5
  | band => 4
  | xor => 3
  | bor => 2
  | and => 1
  | or => 0

/-- Binary operators group to the left, prefix operators to the right. -/
def isLeftAssociative (o : Operator) : Bool := !o.isPrefixOp

/-- Whether a pending operator has all its operands once `incoming` is read. -/
def flushes (incoming pending : Operator) : Bool :=
  if incoming.isLeftAssociative then incoming.precedence ≤ pending.precedence
  else incoming.precedence < pending.precedence

open Token (Mark Kind)

/-- The operator of a mark in an expression. A mark that can be prefix or binary gives its binary
operator. -/
def ofMark? : Mark → Option Operator
  | .plus => some add
  | .dash => some sub
  | .star => some mul
  | .slash => some div
  | .percent => some mod
  | .shiftLeft => some lsh
  | .shiftRight => some rsh
  | .ampersand => some band
  | .pipe => some bor
  | .caret => some xor
  | .equal => some eq
  | .notEqual => some neq
  | .and => some and
  | .or => some or
  | .not => some not
  | .greater => some gt
  | .less => some lt
  | .greaterEqual => some geq
  | .lessEqual => some leq
  | _ => none

/-- The operator that a compound assignment applies. -/
def ofCompound? : Mark → Option Operator
  | .plusAssign => some add
  | .minusAssign => some sub
  | .starAssign => some mul
  | .slashAssign => some div
  | .percentAssign => some mod
  | .ampersandAssign => some band
  | .pipeAssign => some bor
  | .caretAssign => some xor
  | .shiftLeftAssign => some lsh
  | .shiftRightAssign => some rsh
  | _ => none

/-- The operator of a mark where no operand comes before it. -/
def prefixForm? : Operator → Option Operator
  | sub => some neg
  | div => some inv
  | not => some not
  | _ => none

end Operator

end FrontEnd
