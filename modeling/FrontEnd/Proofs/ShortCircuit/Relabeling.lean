import FrontEnd.Proofs.Tree.Relabeling
import FrontEnd.ShortCircuit

/-!
# Lowering does not look at labels

Which operators are rewritten depends on the nodes alone, and what is written for them
takes its labels from what was there. So it makes no difference whether a tree gets other
labels before or after it is lowered.
-/

namespace FrontEnd.ShortCircuit

variable {l : Relabeling}

/-- The operand with other labels. -/
def Operand.relabel (l : Relabeling) (o : Operand) : Operand := ⟨Expr.relabel l o.nodes, o.effect⟩

theorem relabel_nodesOf (operands : List Operand) :
    nodesOf (operands.map (Operand.relabel l)) = Expr.relabel l (nodesOf operands) := by
  unfold nodesOf
  rw [Expr.relabel_eq_map, List.map_flatten, ← List.map_reverse, List.map_map, List.map_map]
  congr 2
  funext o
  exact Expr.relabel_eq_map l o.nodes

theorem relabel_conditionalOf (token : Nat) (o : Operator) (left right : Expr) :
    conditionalOf (l.token token) o (Expr.relabel l left) (Expr.relabel l right) =
      (conditionalOf token o left right).relabel l := by
  simp only [conditionalOf, Conditional.ofBlocks, Conditional.relabel, Block.relabel,
    Statement.relabel, Expr.relabel, Node.relabel]
  split <;> simp [Node.relabel]

theorem relabel_conditional? (n : Node) (operands : List Operand) :
    conditional? (n.relabel l) (operands.map (Operand.relabel l)) =
      (conditional? n operands).map (Conditional.relabel l) := by
  cases n with
  | op token o =>
    match operands with
    | [] | [_] | _ :: _ :: _ :: _ => rfl
    | [right, left] =>
      simp only [conditional?, Node.relabel, List.map_cons, List.map_nil]
      have heffect : (right.relabel l).effect = right.effect := rfl
      rw [heffect]
      split
      · exact congrArg some (relabel_conditionalOf token o left.nodes right.nodes)
      · rfl
  | _ => rw [Node.relabel]; rfl

theorem relabel_ofNode (n : Node) (operands : List Operand) :
    Operand.ofNode (n.relabel l) (operands.map (Operand.relabel l)) =
      (Operand.ofNode n operands).relabel l := by
  unfold Operand.ofNode Operand.relabel
  rw [Node.hasEffect_relabel, List.any_map, Expr.relabel_append, ← relabel_nodesOf]
  rfl

theorem relabel_rewriteFrom (seen : List Operand) (e : Expr) :
    rewriteFrom (seen.map (Operand.relabel l)) (Expr.relabel l e) =
      (rewriteFrom seen e).map (Expr.relabel l) := by
  induction e generalizing seen with
  | nil => rfl
  | cons n rest ih =>
    rw [Expr.relabel_cons, rewriteFrom, rewriteFrom, Node.operands_relabel, List.length_map]
    split
    · rfl
    · simp only [← List.map_take, ← List.map_drop]
      rw [relabel_conditional?]
      cases conditional? n (seen.take n.operands) with
      | some c =>
        simp only [Option.map_some]
        rw [relabel_nodesOf, Expr.relabel_append, Expr.relabel_cons, Node.relabel]
      | none =>
        simp only [Option.map_none]
        rw [relabel_ofNode, ← List.map_cons, ih]

theorem relabel_rewriteOnce (e : Expr) :
    rewriteOnce (Expr.relabel l e) = (rewriteOnce e).map (Expr.relabel l) :=
  relabel_rewriteFrom [] e

theorem relabel_rewritesUpTo (bound : Nat) (e : Expr) :
    rewritesUpTo bound (Expr.relabel l e) = (rewritesUpTo bound e).map (Expr.relabel l) := by
  induction bound generalizing e with
  | zero => rfl
  | succ bound ih =>
    rw [rewritesUpTo, rewritesUpTo, relabel_rewriteOnce]
    cases rewriteOnce e with
    | none => rfl
    | some e' => simp only [Option.map_some, List.map_cons, ih]

theorem relabel_saturate (e : Expr) (count : Nat) :
    saturate (Expr.relabel l e, count) =
      (Expr.relabel l (saturate (e, count)).1, (saturate (e, count)).2) := by
  have hlength : (Expr.relabel l e).length = e.length := by
    rw [Expr.relabel_eq_map, List.length_map]
  simp only [saturate, rewrites, hlength, relabel_rewritesUpTo, List.length_map]
  rw [List.getLastD_eq_getLast?, List.getLastD_eq_getLast?, List.getLast?_map]
  cases (rewritesUpTo e.length e).getLast? <;> rfl

mutual

theorem relabel_lowerNode : (n : Node) →
    lowerNode (n.relabel l) = ((lowerNode n).1.relabel l, (lowerNode n).2)
  | .cond c => by
    rw [Node.relabel, lowerNode, lowerNode, relabel_lowerConditional c]
    simp only [Node.relabel]
  | .int .. | .float .. | .bool .. | .var .. | .op .. | .call .. => by
    simp only [Node.relabel, lowerNode]

theorem relabel_lowerNodes : (e : List Node) →
    lowerNodes (Expr.relabel l e) = (Expr.relabel l (lowerNodes e).1, (lowerNodes e).2)
  | [] => by simp only [Expr.relabel, lowerNodes]
  | n :: rest => by
    rw [Expr.relabel, lowerNodes, lowerNodes, relabel_lowerNode n, relabel_lowerNodes rest]
    simp only [Expr.relabel]

theorem relabel_lowerConditional : (c : Conditional) →
    lowerConditional (c.relabel l) = ((lowerConditional c).1.relabel l, (lowerConditional c).2)
  | .mk _ condition onTrue onFalse _ _ => by
    rw [Conditional.relabel, lowerConditional, lowerConditional, relabel_lowerNodes condition,
      relabel_saturate, relabel_lowerBlock onTrue, relabel_lowerBlock onFalse]
    simp only [Conditional.relabel]

theorem relabel_lowerStatement : (s : Statement) →
    lowerStatement (s.relabel l) = ((lowerStatement s).1.relabel l, (lowerStatement s).2)
  | .declare _ _ _ value _ | .assign _ _ value | .eval _ value | .ret _ value => by
    rw [Statement.relabel, lowerStatement, lowerStatement, relabel_lowerNodes value,
      relabel_saturate]
    simp only [Statement.relabel]
  | .cond c => by
    rw [Statement.relabel, lowerStatement, lowerStatement, relabel_lowerConditional c]
    simp only [Statement.relabel]
  | .loop _ condition body => by
    rw [Statement.relabel, lowerStatement, lowerStatement, relabel_lowerNodes condition,
      relabel_saturate, relabel_lowerBlock body]
    simp only [Statement.relabel]
  | .exit .. | .next .. => by simp only [Statement.relabel, lowerStatement]

/-- A block with other labels is lowered in the same way. -/
theorem relabel_lowerBlock : (b : List Statement) →
    lowerBlock (Block.relabel l b) = (Block.relabel l (lowerBlock b).1, (lowerBlock b).2)
  | [] => by simp only [Block.relabel, lowerBlock]
  | s :: rest => by
    rw [Block.relabel, lowerBlock, lowerBlock, relabel_lowerStatement s, relabel_lowerBlock rest]
    simp only [Block.relabel]

end

end FrontEnd.ShortCircuit
