import FrontEnd.Tree.Item

/-!
# Short circuits

Postfix expressions evaluate both operands of `&&` and `||`. Where the right operand
may have an effect, the operator is turned into a conditional that evaluates it only
if the left one does not decide. `rewriteOnce` turns the first such operator of an
expression, and `rewrites` repeats that until none is left.
-/

namespace FrontEnd.ShortCircuit

/-- A complete operand: the nodes that compute it, and whether they may have an effect. -/
structure Operand where
  nodes : Expr
  effect : Bool

/-- The nodes of some operands, of which the last one comes first. -/
def nodesOf (operands : List Operand) : Expr := (operands.reverse.map Operand.nodes).flatten

/-- The conditional that does what a logical operator does. It gives the deciding value where the
left operand decides, and evaluates the right one otherwise. -/
def conditionalOf (token : Nat) (o : Operator) (left right : Expr) : Conditional :=
  let condition := if o = .and then left ++ [.op token .not] else left
  .ofBlocks token condition [.eval token [.bool token (o == .or)]] [.eval token right]

/-- The conditional that must stand for a node and its operands, if it is a logical operator whose
right operand may have an effect. The right operand is the first. -/
def conditional? (n : Node) (operands : List Operand) : Option Conditional :=
  match n, operands with
  | .op token o, [right, left] =>
    if o.isLogical && right.effect then some (conditionalOf token o left.nodes right.nodes)
    else none
  | _, _ => none

/-- The operand that a node makes of its own operands. -/
def Operand.ofNode (n : Node) (operands : List Operand) : Operand :=
  ⟨nodesOf operands ++ [n], n.hasEffect || operands.any Operand.effect⟩

/-- Rewrites the first operator that needs it. `seen` holds the operands on the stack, the last one
first. Gives nothing if no operator needs it, or if an operand is missing. -/
def rewriteFrom (seen : List Operand) : List Node → Option Expr
  | [] => none
  | n :: rest =>
    if seen.length < n.operands then none
    else
      let own := seen.take n.operands
      let below := seen.drop n.operands
      match conditional? n own with
      | some c => some (nodesOf below ++ .cond c :: rest)
      | none => rewriteFrom (.ofNode n own :: below) rest

/-- Rewrites the first logical operator whose right operand may have an effect. -/
def rewriteOnce (e : Expr) : Option Expr := rewriteFrom [] e

/-- At most `bound` successive rewrites. -/
def rewritesUpTo : Nat → Expr → List Expr
  | 0, _ => []
  | bound + 1, e =>
    match rewriteOnce e with
    | none => []
    | some e => e :: rewritesUpTo bound e

/-- All successive rewrites. Each makes the expression shorter, so its length bounds them. -/
def rewrites (e : Expr) : List Expr := rewritesUpTo e.length e

/-- The expression after all rewrites. Their number is added to a count. -/
def saturate : Expr × Nat → Expr × Nat
  | (e, count) =>
    let es := rewrites e
    (es.getLastD e, count + es.length)

mutual

/-- Lowers the conditional that a node may be. -/
def lowerNode : Node → Node × Nat
  | .cond c =>
    let (c, count) := lowerConditional c
    (.cond c, count)
  | n => (n, 0)

/-- Lowers the conditionals among some nodes. -/
def lowerNodes : List Node → List Node × Nat
  | [] => ([], 0)
  | n :: ns =>
    let (n, first) := lowerNode n
    let (ns, others) := lowerNodes ns
    (n :: ns, first + others)

/-- Lowers the expressions of a conditional. -/
def lowerConditional : Conditional → Conditional × Nat
  | .mk token condition onTrue onFalse trueReturns falseReturns =>
    let (condition, count) := saturate (lowerNodes condition)
    let (onTrue, first) := lowerBlock onTrue
    let (onFalse, second) := lowerBlock onFalse
    (.mk token condition onTrue onFalse trueReturns falseReturns, count + first + second)

/-- Lowers the expressions of a statement. -/
def lowerStatement : Statement → Statement × Nat
  | .declare token name type value slot =>
    let (value, count) := saturate (lowerNodes value)
    (.declare token name type value slot, count)
  | .assign token target value =>
    let (value, count) := saturate (lowerNodes value)
    (.assign token target value, count)
  | .eval token value =>
    let (value, count) := saturate (lowerNodes value)
    (.eval token value, count)
  | .ret token value =>
    let (value, count) := saturate (lowerNodes value)
    (.ret token value, count)
  | .cond c =>
    let (c, count) := lowerConditional c
    (.cond c, count)
  | .loop token condition body =>
    let (condition, count) := saturate (lowerNodes condition)
    let (body, others) := lowerBlock body
    (.loop token condition body, count + others)
  | .exit token amount => (.exit token amount, 0)
  | .next token => (.next token, 0)

/-- Lowers the expressions of a block. -/
def lowerBlock : List Statement → List Statement × Nat
  | [] => ([], 0)
  | s :: ss =>
    let (s, first) := lowerStatement s
    let (ss, others) := lowerBlock ss
    (s :: ss, first + others)

end

/-- Lowers an expression: the conditionals in it first, then its own operators. Gives the number of
rewrites too. -/
def lowerExpr (e : Expr) : Expr × Nat := saturate (lowerNodes e)

/-- Lowers the functions among some items. -/
def lowerItems : List Item → List Item × Nat
  | [] => ([], 0)
  | i :: rest =>
    let (rest, others) := lowerItems rest
    match i with
    | .function f =>
      let (body, count) := lowerBlock f.body
      (.function { f with body } :: rest, count + others)
    | i => (i :: rest, others)

end FrontEnd.ShortCircuit
