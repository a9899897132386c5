import FrontEnd.Proofs.Scoping.Referents
import FrontEnd.Proofs.ShortCircuit.Rewriting
import FrontEnd.Proofs.Tree.Items

/-!
# Lowering keeps what is found

An operand that moves into a block of a conditional is all that the block evaluates, and an
expression declares nothing in the scope that it stands in. So each name of it stands for
what it stood for.
-/

namespace FrontEnd.ShortCircuit

variable (referent? : String → Option Referent)

theorem findings_conditionalOf (token : Nat) (o : Operator) (left right : Expr) :
    (conditionalOf token o left right).findings referent? =
      Expr.findings referent? left ++ Expr.findings referent? right := by
  have hcondition : Expr.findings referent? (if o = .and then left ++ [.op token .not] else left) =
      Expr.findings referent? left := by
    split
    · simp [Node.findings]
    · rfl
  simp [conditionalOf, Conditional.ofBlocks, Conditional.findings, Statement.findings,
    Node.findings, hcondition]

theorem Rewrite.findings {e e' : Expr} (h : Rewrite e e') :
    Expr.findings referent? e' = Expr.findings referent? e := by
  obtain ⟨before, left, right, token, o, after, ho, hb, hl, hr⟩ := h
  simp [Node.findings, findings_conditionalOf]

theorem findings_saturate (e : Expr) (count : Nat) :
    Expr.findings referent? (saturate (e, count)).1 = Expr.findings referent? e :=
  saturate_induction (P := fun e' => Expr.findings referent? e' = Expr.findings referent? e)
    (fun _ _ hr he => (hr.findings referent?).trans he) rfl count

/-- A statement that is lowered declares what it declared. -/
theorem after_lowerStatement (σ : NameScope) (s : Statement) :
    σ.after (lowerStatement s).1 = σ.after s := by
  cases s <;> rw [lowerStatement] <;> rfl

mutual

theorem findings_lowerNode : (n : Node) → (referent? : String → Option Referent) →
    (lowerNode n).1.findings referent? = n.findings referent?
  | .cond c, _ => by
    rw [lowerNode, Node.findings, Node.findings]
    exact findings_lowerConditional c _
  | .int .., _ | .float .., _ | .bool .., _ | .var .., _ | .op .., _ | .call .., _ => by
    simp [lowerNode]

theorem findings_lowerNodes : (e : List Node) → (referent? : String → Option Referent) →
    Expr.findings referent? (lowerNodes e).1 = Expr.findings referent? e
  | [], _ => by rw [lowerNodes]
  | n :: rest, _ => by
    rw [lowerNodes, Expr.findings_cons, Expr.findings_cons, findings_lowerNode n,
      findings_lowerNodes rest]

theorem findings_lowerConditional : (c : Conditional) → (referent? : String → Option Referent) →
    (lowerConditional c).1.findings referent? = c.findings referent?
  | .mk _ condition onTrue onFalse _ _, _ => by
    rw [lowerConditional, Conditional.findings, Conditional.findings, findings_saturate,
      findings_lowerNodes condition, findings_lowerBlock onTrue, findings_lowerBlock onFalse]

theorem findings_lowerStatement : (s : Statement) → (σ : NameScope) →
    (lowerStatement s).1.findings σ = s.findings σ
  | .declare _ _ _ value _, _ | .assign _ _ value, _ | .eval _ value, _ | .ret _ value, _ => by
    rw [lowerStatement, Statement.findings, Statement.findings, findings_saturate,
      findings_lowerNodes value]
  | .cond c, _ => by
    rw [lowerStatement, Statement.findings, Statement.findings, findings_lowerConditional c]
  | .loop _ condition body, _ => by
    rw [lowerStatement, Statement.findings, Statement.findings, findings_saturate,
      findings_lowerNodes condition, findings_lowerBlock body]
  | .exit .., _ | .next .., _ => by rw [lowerStatement]

theorem findings_lowerBlock : (b : List Statement) → (σ : NameScope) →
    Block.findings σ (lowerBlock b).1 = Block.findings σ b
  | [], _ => by rw [lowerBlock]
  | s :: rest, _ => by
    rw [lowerBlock, Block.findings_cons, Block.findings_cons, findings_lowerStatement s,
      after_lowerStatement, findings_lowerBlock rest]

end

/-- Of an item only the body of a function is changed, and that keeps what is found. -/
theorem keepsFindings_lowerItems (items : List Item) :
    List.Forall₂ (Item.Keeps fun b σ => Block.findings σ b) items (lowerItems items).1 := by
  induction items with
  | nil => exact .nil
  | cons i rest ih =>
    cases i with
    | function f => exact .cons (.function f (funext fun σ => findings_lowerBlock f.body σ)) ih
    | _ => exact .cons (.other rfl) ih

end FrontEnd.ShortCircuit
