import FrontEnd.Proofs.ShortCircuit.Preservation

/-!
# Lowering whole programs

Lowering goes through all expressions of a block, the innermost first. So a lowered
block does what the block did, and no expression in it is left to rewrite. Both together
give the main statement: with all operands evaluated, a lowered program does what the
program does with short circuits, if no operand of a logical operator and no condition
turns out to be something else than a boolean.
-/

namespace FrontEnd.ShortCircuit

open Meaning

section Meaning

variable {α σ : Type} (I : Interpretation α σ) (turns : Nat)

/-- Rewriting keeps what an expression does, however its conditionals were changed before. -/
theorem saturate_refinedBy {e e' : Expr}
    (h : List.Forall₂ (I.NodeRefinedBy turns .checked .checked) e e') (count : Nat) :
    RefinedBy (I.expr .checked turns e) (I.expr .checked turns (saturate (e', count)).1) :=
  saturate_induction (P := fun q => RefinedBy (I.expr .checked turns e) (I.expr .checked turns q))
    (fun _ _ hr hq => hq.trans (hr.refinedBy I turns)) (I.expr_refinedBy turns h) count

mutual

theorem lowerNode_refinedBy : ∀ (n : Node),
    I.NodeRefinedBy turns .checked .checked n (lowerNode n).1
  | .cond c => by
    refine ⟨rfl, fun _ => ?_⟩
    rw [lowerNode, Interpretation.node, Interpretation.node]
    exact lowerConditional_refinedBy c
  | .int _ _ _ | .float _ _ _ | .bool _ _ | .var _ _ _ | .op _ _ | .call _ _ _ _ => by
    exact I.nodeRefinedBy_self turns (.refl _) fun _ hc => by cases hc

theorem lowerNodes_refinedBy : ∀ (e : List Node),
    List.Forall₂ (I.NodeRefinedBy turns .checked .checked) e (lowerNodes e).1
  | [] => by
    rw [lowerNodes]
    exact .nil
  | n :: rest => by
    rw [lowerNodes]
    exact .cons (lowerNode_refinedBy n) (lowerNodes_refinedBy rest)

theorem lowerConditional_refinedBy : ∀ (c : Conditional),
    RefinedBy (I.conditional .checked turns c) (I.conditional .checked turns (lowerConditional c).1)
  | .mk _ condition onTrue onFalse _ _ => by
    rw [lowerConditional]
    exact I.conditional_refinedBy turns (saturate_refinedBy I turns (lowerNodes_refinedBy condition) _)
      (lowerBlock_refinedBy onTrue I.void) (lowerBlock_refinedBy onFalse I.void)

theorem lowerStatement_refinedBy : ∀ (s : Statement),
    RefinedBy (I.statement .checked turns s) (I.statement .checked turns (lowerStatement s).1)
  | .declare _ name type value _ => by
    rw [lowerStatement]
    exact I.declare_refinedBy turns name type (isEmpty_lowerExpr value).symm fun _ =>
      saturate_refinedBy I turns (lowerNodes_refinedBy value) _
  | .assign _ target value => by
    rw [lowerStatement]
    exact I.assign_refinedBy turns rfl (saturate_refinedBy I turns (lowerNodes_refinedBy value) _)
  | .eval _ value => by
    rw [lowerStatement]
    exact I.eval_refinedBy turns (saturate_refinedBy I turns (lowerNodes_refinedBy value) _)
  | .ret _ value => by
    rw [lowerStatement]
    exact I.ret_refinedBy turns (isEmpty_lowerExpr value).symm fun _ =>
      saturate_refinedBy I turns (lowerNodes_refinedBy value) _
  | .cond c => by
    rw [lowerStatement, Interpretation.statement, Interpretation.statement]
    exact lowerConditional_refinedBy c
  | .loop _ condition body => by
    rw [lowerStatement]
    exact I.loop_refinedBy turns (saturate_refinedBy I turns (lowerNodes_refinedBy condition) _)
      (lowerBlock_refinedBy body I.void)
  | .exit _ _ | .next _ => by
    rw [lowerStatement]
    exact RefinedBy.refl _

theorem lowerBlock_refinedBy : ∀ (b : List Statement) (last : Value α),
    RefinedBy (I.blockFrom .checked turns last b) (I.blockFrom .checked turns last (lowerBlock b).1)
  | [], last => by
    rw [lowerBlock]
    exact RefinedBy.refl _
  | s :: rest, last => by
    rw [lowerBlock]
    exact I.block_cons_refinedBy turns last (lowerStatement_refinedBy s)
      fun v => lowerBlock_refinedBy rest v

end

end Meaning

mutual

theorem rewriteOnce_lowerNodes : ∀ (e : List Node),
    ∀ q ∈ Expr.inner (lowerNodes e).1, rewriteOnce q = none
  | [] => by
    rw [lowerNodes]
    simp [Expr.inner]
  | .cond c :: rest => by
    rw [lowerNodes, lowerNode, Expr.inner, List.forall_mem_append]
    exact ⟨rewriteOnce_lowerConditional c, rewriteOnce_lowerNodes rest⟩
  | .int _ _ _ :: rest | .float _ _ _ :: rest | .bool _ _ :: rest | .var _ _ _ :: rest
  | .op _ _ :: rest | .call _ _ _ _ :: rest =>
    rewriteOnce_lowerNodes rest

theorem rewriteOnce_lowerConditional : ∀ (c : Conditional),
    ∀ q ∈ (lowerConditional c).1.exprs, rewriteOnce q = none
  | .mk _ condition onTrue onFalse _ _ => by
    rw [lowerConditional, Conditional.exprs]
    simp only [List.forall_mem_append, List.forall_mem_cons]
    exact ⟨⟨⟨rewriteOnce_saturate _ _, inner_saturate (rewriteOnce_lowerNodes condition) _⟩,
      rewriteOnce_lowerBlock onTrue⟩, rewriteOnce_lowerBlock onFalse⟩

theorem rewriteOnce_lowerStatement : ∀ (s : Statement),
    ∀ q ∈ (lowerStatement s).1.exprs, rewriteOnce q = none
  | .declare _ name type value _ | .ret _ value => by
    rw [lowerStatement, Statement.exprs]
    split
    · simp
    · rw [List.forall_mem_cons]
      exact ⟨rewriteOnce_saturate _ _, inner_saturate (rewriteOnce_lowerNodes value) _⟩
  | .assign _ _ value | .eval _ value => by
    rw [lowerStatement, Statement.exprs, List.forall_mem_cons]
    exact ⟨rewriteOnce_saturate _ _, inner_saturate (rewriteOnce_lowerNodes value) _⟩
  | .cond c => by
    rw [lowerStatement, Statement.exprs]
    exact rewriteOnce_lowerConditional c
  | .loop _ condition body => by
    rw [lowerStatement, Statement.exprs, List.forall_mem_append, List.forall_mem_cons]
    exact ⟨⟨rewriteOnce_saturate _ _, inner_saturate (rewriteOnce_lowerNodes condition) _⟩,
      rewriteOnce_lowerBlock body⟩
  | .exit _ _ | .next _ => by
    rw [lowerStatement, Statement.exprs]
    simp

theorem rewriteOnce_lowerBlock : ∀ (b : List Statement),
    ∀ q ∈ Block.exprs (lowerBlock b).1, rewriteOnce q = none
  | [] => by
    rw [lowerBlock, Block.exprs]
    simp
  | s :: rest => by
    rw [lowerBlock, Block.exprs, List.forall_mem_append]
    exact ⟨rewriteOnce_lowerStatement s, rewriteOnce_lowerBlock rest⟩

end

section Strict

variable {α σ : Type} (I : Interpretation α σ) (turns : Nat)

theorem lowerExpr_refinedBy_strict (e : Expr) :
    RefinedBy (I.expr .checked turns e) (I.expr .strict turns (lowerExpr e).1) :=
  (saturate_refinedBy I turns (lowerNodes_refinedBy I turns e) _).trans
    (refinesOn_strict I turns _ (rewriteOnce_saturate _ _)
      (Interpretation.conditionals_refinedBy_of_exprs (refinesOn_strict I turns) _
        (inner_saturate (rewriteOnce_lowerNodes e) _)))

theorem lowerBlock_refinedBy_strict (b : Block) :
    RefinedBy (I.block .checked turns b) (I.block .strict turns (lowerBlock b).1) :=
  (lowerBlock_refinedBy I turns b I.void).trans
    (Interpretation.block_refinedBy_of_exprs (refinesOn_strict I turns) _
      (rewriteOnce_lowerBlock b) I.void)

theorem expr_refinedBy_shortCircuit (e : Expr) :
    RefinedBy (I.expr .checked turns e) (I.expr .shortCircuit turns e) :=
  refinesOn_shortCircuit I turns e trivial
    (Interpretation.conditionals_refinedBy_of_exprs (refinesOn_shortCircuit I turns) e
      fun _ _ => trivial)

theorem block_refinedBy_shortCircuit (b : Block) :
    RefinedBy (I.block .checked turns b) (I.block .shortCircuit turns b) :=
  Interpretation.block_refinedBy_of_exprs (refinesOn_shortCircuit I turns) b (fun _ _ => trivial)
    I.void

/-- What does not end with a fault was complete. -/
theorem isComplete_of_not_isFault (order : Order) {e : Expr} {s : σ}
    (h : ¬ IsFault (I.expr order turns e s)) : e.IsComplete := by
  by_contra hc
  rw [I.expr_of_not_isComplete order turns hc] at h
  exact h trivial

/-- **Lowering keeps what a program does.** The lowered expression, run on a stack of values, gives
the value of the expression with short circuits, or ends early as that does, and leaves the same
store; and so does a lowered block. The run from which this starts must meet no fault: operands of
logical operators and conditions are booleans where they are evaluated, and so would be the operands
that a short circuit leaves out. Loops may take any number of turns. -/
theorem strict_lower_eq_shortCircuit (s : σ) :
    (∀ e : Expr, ¬ IsFault (I.expr .checked turns e s) →
      I.onStack turns (lowerExpr e).1 s = I.expr .shortCircuit turns e s) ∧
    ∀ b : Block, ¬ IsFault (I.block .checked turns b s) →
      I.block .strict turns (lowerBlock b).1 s = I.block .shortCircuit turns b s := by
  constructor
  · intro e he
    have hstrict := lowerExpr_refinedBy_strict I turns e s he
    have hcomplete : (lowerExpr e).1.IsComplete :=
      isComplete_of_not_isFault I turns .strict (by rwa [hstrict])
    rw [I.onStack_eq_expr turns hcomplete, hstrict, expr_refinedBy_shortCircuit I turns e s he]
  · intro b hb
    rw [lowerBlock_refinedBy_strict I turns b s hb, block_refinedBy_shortCircuit I turns b s hb]

/-- `a && f() || g()` where `a` is true: `g` is not called. -/
theorem strict_lower_recorded :
    let I := Interpretation.recorded [["a"]]
    let e : Expr := [.var 0 ["a"] none, .call 1 ["f"] 0 [], .op 2 .and, .call 3 ["g"] 0 [], .op 4 .or]
    (¬ IsFault (I.expr .checked 1 e []) ∧ ¬ IsFault (I.block .checked 1 [.eval 0 e] [])) ∧
      I.onStack 1 (lowerExpr e).1 [] = .ok (.bool true) [["f"]] ∧
      I.block .strict 1 (lowerBlock [.eval 0 e]).1 [] = .ok (.bool true) [["f"]] := by
  intro I e
  have he : ¬ IsFault (I.expr .checked 1 e []) := by decide
  have hb : ¬ IsFault (I.block .checked 1 [.eval 0 e] []) := by decide
  exact ⟨⟨he, hb⟩, (strict_lower_eq_shortCircuit I 1 []).1 e he,
    (strict_lower_eq_shortCircuit I 1 []).2 _ hb⟩

end Strict

end FrontEnd.ShortCircuit
