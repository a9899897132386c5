import FrontEnd.Proofs.References.Basic
import FrontEnd.Proofs.ShortCircuit.Rewriting

/-!
# Lowering keeps the mentions

A logical operator is turned into a conditional that evaluates the same operands in
the same order, so the mentions of a tree stay, in their order, and with them its
references.
-/

namespace FrontEnd.ShortCircuit

theorem mentions_conditionalOf (token : Nat) (o : Operator) (left right : Expr) :
    (conditionalOf token o left right).mentions =
      Expr.mentions left ++ Expr.mentions right := by
  have hcondition : Expr.mentions (if o = .and then left ++ [.op token .not] else left) =
      Expr.mentions left := by
    split
    · simp [Node.mentions]
    · rfl
  simp [conditionalOf, Conditional.ofBlocks, Conditional.mentions, Statement.mentions,
    Node.mentions, hcondition]

theorem Rewrite.mentions {e e' : Expr} (h : Rewrite e e') :
    Expr.mentions e' = Expr.mentions e := by
  obtain ⟨before, left, right, token, o, after, ho, hb, hl, hr⟩ := h
  simp [Node.mentions, mentions_conditionalOf]

theorem mentions_saturate (e : Expr) (count : Nat) :
    Expr.mentions (saturate (e, count)).1 = Expr.mentions e :=
  saturate_induction (P := fun e' => Expr.mentions e' = Expr.mentions e)
    (fun _ _ hr he => hr.mentions.trans he) rfl count

mutual

theorem mentions_lowerNode : (n : Node) → (lowerNode n).1.mentions = n.mentions
  | .cond c => by
    rw [lowerNode, Node.mentions, Node.mentions]
    exact mentions_lowerConditional c
  | .int .. | .float .. | .bool .. | .var .. | .op .. | .call .. => by simp [lowerNode]

theorem mentions_lowerNodes :
    (e : List Node) → Expr.mentions (lowerNodes e).1 = Expr.mentions e
  | [] => by rw [lowerNodes]
  | n :: rest => by
    rw [lowerNodes, Expr.mentions_cons, Expr.mentions_cons, mentions_lowerNode n,
      mentions_lowerNodes rest]

theorem mentions_lowerConditional :
    (c : Conditional) → (lowerConditional c).1.mentions = c.mentions
  | .mk _ condition onTrue onFalse _ _ => by
    rw [lowerConditional, Conditional.mentions, Conditional.mentions, mentions_saturate,
      mentions_lowerNodes condition, mentions_lowerBlock onTrue,
      mentions_lowerBlock onFalse]

theorem mentions_lowerStatement :
    (s : Statement) → (lowerStatement s).1.mentions = s.mentions
  | .declare _ _ _ value _ => by
    rw [lowerStatement, Statement.mentions, Statement.mentions, mentions_saturate,
      mentions_lowerNodes value, ← lowerExpr, isEmpty_lowerExpr]
  | .assign _ _ value | .eval _ value | .ret _ value => by
    rw [lowerStatement, Statement.mentions, Statement.mentions, mentions_saturate,
      mentions_lowerNodes value]
  | .cond c => by
    rw [lowerStatement, Statement.mentions, Statement.mentions,
      mentions_lowerConditional c]
  | .loop _ condition body => by
    rw [lowerStatement, Statement.mentions, Statement.mentions, mentions_saturate,
      mentions_lowerNodes condition, mentions_lowerBlock body]
  | .exit .. | .next .. => by rw [lowerStatement]

theorem mentions_lowerBlock :
    (b : List Statement) → Block.mentions (lowerBlock b).1 = Block.mentions b
  | [] => by rw [lowerBlock]
  | s :: rest => by
    rw [lowerBlock, Block.mentions_cons, Block.mentions_cons, mentions_lowerStatement s,
      mentions_lowerBlock rest]

end

/-- Of an item only the body of a function is changed, and that keeps its mentions. -/
theorem keeps_lowerItems (items : List Item) :
    List.Forall₂ (Item.Keeps Block.mentions) items (lowerItems items).1 := by
  induction items with
  | nil => exact .nil
  | cons i rest ih =>
    cases i with
    | function f => exact .cons (.function f (mentions_lowerBlock f.body)) ih
    | _ => exact .cons (.other rfl) ih

end FrontEnd.ShortCircuit
