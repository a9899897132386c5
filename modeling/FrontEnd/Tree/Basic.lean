import FrontEnd.Decimal.Shortest
import FrontEnd.Tree.ModulePath
import FrontEnd.Tree.Operator

/-!
# Expressions and statements

An expression is a list of nodes in postfix order: run on a stack of values, a node
takes its operands off the stack and puts one value back. A conditional may stand as
a node of an expression and as a statement, so nodes, statements and conditionals
are defined together. Nodes refer to the tokens of their file by index.
-/

namespace FrontEnd

/-- The place that an assignment writes. -/
structure Target where
  token : Nat
  path : List String
  binding : Option Binding
  deriving DecidableEq, Repr

mutual

/-- A node of an expression in postfix order. -/
inductive Node
  | int (token value : Nat) (type : ValueType)
  | float (token : Nat) (value : Double) (type : ValueType)
  | bool (token : Nat) (value : Bool)
  | var (token : Nat) (path : List String) (binding : Option Binding)
  | op (token : Nat) (operator : Operator)
  | call (token : Nat) (path : List String) (arity : Nat) (candidates : List FunctionRef)
  /-- A conditional whose value is wanted. -/
  | cond (c : Conditional)

/-- A statement. -/
inductive Statement
  /-- A local variable; `value` is empty if it starts without one. -/
  | declare (token : Nat) (name : String) (type : Option ValueType) (value : List Node)
      (slot : Option Nat)
  | assign (token : Nat) (target : Target) (value : List Node)
  /-- An expression evaluated for its effect, or as the value of its block. -/
  | eval (token : Nat) (value : List Node)
  /-- Leaves the function; `value` is empty if there is none. -/
  | ret (token : Nat) (value : List Node)
  | cond (c : Conditional)
  | loop (token : Nat) (condition : List Node) (body : List Statement)
  /-- Leaves `amount` enclosing loops. -/
  | exit (token amount : Nat)
  /-- Goes on with the next turn of the enclosing loop. -/
  | next (token : Nat)

/-- A condition with two blocks, the second of them empty if there is no other case. -/
inductive Conditional
  | mk (token : Nat) (condition : List Node) (onTrue onFalse : List Statement)
      (trueReturns falseReturns : Bool)

end

/-- An expression in postfix order. -/
abbrev Expr := List Node

/-- Statements that share a scope. -/
abbrev Block := List Statement

instance : Inhabited Node := ⟨.bool 0 false⟩
instance : Inhabited Statement := ⟨.next 0⟩
instance : Inhabited Conditional := ⟨.mk 0 [] [] [] false false⟩

namespace Conditional

/-- A conditional about whose blocks nothing is known yet. -/
def ofBlocks (token : Nat) (condition : Expr) (onTrue onFalse : Block) : Conditional :=
  .mk token condition onTrue onFalse false false

/-- The token of its `if`. -/
def token : Conditional → Nat
  | mk token _ _ _ _ _ => token

/-- What decides between the blocks. -/
def condition : Conditional → Expr
  | mk _ condition _ _ _ _ => condition

/-- The block for a condition that holds. -/
def onTrue : Conditional → Block
  | mk _ _ onTrue _ _ _ => onTrue

/-- The block for a condition that does not hold. It is empty where there is no `else`. -/
def onFalse : Conditional → Block
  | mk _ _ _ onFalse _ _ => onFalse

/-- Whether the first block is marked as one that always returns. -/
def trueReturns : Conditional → Bool
  | mk _ _ _ _ trueReturns _ => trueReturns

/-- Whether the second block is marked as one that always returns. -/
def falseReturns : Conditional → Bool
  | mk _ _ _ _ _ falseReturns => falseReturns

end Conditional

namespace Node

/-- The token that the node was read from. -/
def token : Node → Nat
  | int token _ _ | float token _ _ | bool token _ | var token _ _ | op token _
  | call token _ _ _ => token
  | cond c => c.token

/-- The number of values that the node takes off the stack. -/
def operands : Node → Nat
  | op _ operator => operator.arity
  | call _ _ arity _ => arity
  | _ => 0

/-- Only calls and conditionals may do more than give a value. -/
def hasEffect : Node → Bool
  | call _ _ _ _ | cond _ => true
  | _ => false

/-- A value that is written out. -/
def isLiteral : Node → Bool
  | int _ _ _ | float _ _ _ | bool _ _ => true
  | _ => false

/-- A conditional in the place of an operand. -/
def isConditional : Node → Bool
  | cond _ => true
  | _ => false

/-- The short text of a node. -/
def toText : Node → String
  | int _ value _ => toString value
  | float _ value _ => value.toText
  | bool _ value => if value then "true" else "false"
  | var _ path _ => joinDots path
  | op _ operator => operator.name
  | call _ path arity _ => s!"{joinDots path}/{arity}"
  | cond _ => "if"

end Node

namespace Expr

/-- The short texts of the nodes. -/
def render (e : Expr) : List String := e.map Node.toText

/-- Whether a node of the expression itself is a conditional. -/
def containsConditional (e : Expr) : Bool := e.any Node.isConditional

end Expr

namespace Statement

/-- The token that the statement starts with. -/
def token : Statement → Nat
  | declare token _ _ _ _ | assign token _ _ | eval token _ | ret token _ | loop token _ _
  | exit token _ | next token => token
  | cond c => c.token

/-- The expression that the statement itself evaluates. A bare return evaluates the empty one. -/
def expr? : Statement → Option Expr
  | declare _ _ _ value _ => if value.isEmpty then none else some value
  | assign _ _ value | eval _ value | ret _ value => some value
  | cond c => some c.condition
  | loop _ condition _ => some condition
  | exit _ _ | next _ => none

/-- The blocks inside the statement, each a scope of its own. -/
def blocks : Statement → List Block
  | cond c => [c.onTrue, c.onFalse]
  | loop _ _ body => [body]
  | _ => []

end Statement

end FrontEnd
