import FrontEnd.Proofs.ShortCircuit.Rewriting
import FrontEnd.Proofs.Tree.WellFormed

/-!
# Lowering keeps trees well formed

The operands of a logical operator that is rewritten are complete expressions of their
own, and the conditional in their place leaves the one value that the operator left.
-/

namespace FrontEnd.ShortCircuit

variable {T : Nat → Prop}

theorem depthAfter_nodesOf {os : List Operand} (h : ∀ o ∈ os, o.Scanned) (depth : Nat) :
    Expr.depthAfter depth (nodesOf os) = some (depth + os.length) := by
  rw [nodesOf, Expr.depthAfter_flatten]
  · simp
  · intro e he
    obtain ⟨o, ho, rfl⟩ := List.mem_map.mp he
    exact (h o (List.mem_reverse.mp ho)).isComplete

theorem arity_of_isLogical {o : Operator} (h : o.isLogical = true) : o.arity = 2 := by
  cases o <;> first | rfl | cases h

/-- A conditional for a logical operator evaluates complete expressions. -/
theorem wellFormed_conditionalOf {token : Nat} {o : Operator} {left right : Expr} (ht : T token)
    (hl : left.WellFormed T) (hr : right.WellFormed T) :
    (conditionalOf token o left right).WellFormed T := by
  have hvalue : Expr.WellFormed T [.bool token (o == .or)] := Expr.wellFormed_singleton ht rfl
  have hcondition : Expr.WellFormed T (if o = .and then left ++ [.op token .not] else left) := by
    split
    · refine ⟨?_, Expr.nodesWellFormed_append.mpr ⟨hl.2, ht, trivial⟩⟩
      rw [Expr.IsComplete, Expr.depthAfter_append, hl.1]
      rfl
    · exact hl
  exact ⟨ht, hcondition, ⟨⟨ht, hvalue⟩, trivial⟩, ⟨ht, hr⟩, trivial⟩

namespace Rewrite

variable {e e' : Expr}

/-- An expression leaves as many values as before. -/
theorem depthAfter_eq (h : Rewrite e e') (depth : Nat) :
    Expr.depthAfter depth e' = Expr.depthAfter depth e := by
  obtain ⟨before, left, right, token, o, after, ho, hb, hl, hr⟩ := h
  have htwo : (Node.op token o).operands = 2 := arity_of_isLogical ho
  simp only [Expr.depthAfter_append, depthAfter_nodesOf hb, Option.bind_some,
    hl.isComplete.depthAfter, hr.isComplete.depthAfter]
  rw [Expr.depthAfter_cons (Nat.zero_le _), Expr.depthAfter_cons (by omega), htwo]
  rfl

theorem nodesWellFormed (h : Rewrite e e') (he : Expr.NodesWellFormed T e) :
    Expr.NodesWellFormed T e' := by
  obtain ⟨before, left, right, token, o, after, ho, hb, hl, hr⟩ := h
  simp only [Expr.nodesWellFormed_append] at he
  obtain ⟨⟨⟨hbefore, hleft⟩, hright⟩, htoken, hafter⟩ := he
  refine Expr.nodesWellFormed_append.mpr ⟨hbefore, ?_, hafter⟩
  exact wellFormed_conditionalOf htoken ⟨hl.isComplete, hleft⟩ ⟨hr.isComplete, hright⟩

end Rewrite

theorem depthAfter_saturate (e : Expr) (count depth : Nat) :
    Expr.depthAfter depth (saturate (e, count)).1 = Expr.depthAfter depth e :=
  saturate_induction (P := fun e' => Expr.depthAfter depth e' = Expr.depthAfter depth e)
    (fun _ _ hr he => (hr.depthAfter_eq depth).trans he) rfl count

theorem operands_lowerNode (n : Node) : (lowerNode n).1.operands = n.operands := by
  cases n with
  | cond c => rw [lowerNode]; rfl
  | _ => simp [lowerNode]

theorem depthAfter_lowerNodes (e : Expr) (depth : Nat) :
    Expr.depthAfter depth (lowerNodes e).1 = Expr.depthAfter depth e := by
  induction e generalizing depth with
  | nil => rw [lowerNodes]
  | cons n rest ih =>
    rw [lowerNodes, Expr.depthAfter, Expr.depthAfter, operands_lowerNode]
    split
    · rfl
    · exact ih _

theorem depthAfter_lowerExpr (e : Expr) (depth : Nat) :
    Expr.depthAfter depth (saturate (lowerNodes e)).1 = Expr.depthAfter depth e :=
  (depthAfter_saturate _ _ depth).trans (depthAfter_lowerNodes e depth)

theorem isComplete_lowerExpr {e : Expr} (h : e.IsComplete) :
    Expr.IsComplete (saturate (lowerNodes e)).1 :=
  (depthAfter_lowerExpr e 0).trans h

/-- Nothing comes to stand where there was no value. -/
theorem isComplete_lowerExpr_of_ne_nil {e : Expr} (h : e ≠ [] → e.IsComplete)
    (hne : (saturate (lowerNodes e)).1 ≠ []) : Expr.IsComplete (saturate (lowerNodes e)).1 := by
  refine isComplete_lowerExpr (h ?_)
  rintro rfl
  exact hne rfl

theorem nodesWellFormed_saturate {e : Expr} (h : Expr.NodesWellFormed T e) (count : Nat) :
    Expr.NodesWellFormed T (saturate (e, count)).1 :=
  saturate_induction (fun _ _ hr he => hr.nodesWellFormed he) h count

mutual

theorem wellFormed_lowerNode : (n : Node) → n.WellFormed T → (lowerNode n).1.WellFormed T
  | .cond c, h => by
    rw [lowerNode]
    exact wellFormed_lowerConditional c h
  | .int .., h | .float .., h | .bool .., h | .var .., h | .op .., h | .call .., h => by
    simpa only [lowerNode] using h

theorem nodesWellFormed_lowerNodes :
    (e : List Node) → Expr.NodesWellFormed T e → Expr.NodesWellFormed T (lowerNodes e).1
  | [], _ => by
    rw [lowerNodes]
    exact trivial
  | n :: rest, ⟨hn, hrest⟩ => by
    rw [lowerNodes]
    exact ⟨wellFormed_lowerNode n hn, nodesWellFormed_lowerNodes rest hrest⟩

theorem wellFormed_lowerConditional :
    (c : Conditional) → c.WellFormed T → (lowerConditional c).1.WellFormed T
  | .mk _ condition onTrue onFalse _ _, ⟨ht, ⟨hcomplete, hc⟩, htrue, hfalse⟩ => by
    rw [lowerConditional]
    exact ⟨ht, ⟨isComplete_lowerExpr hcomplete,
      nodesWellFormed_saturate (nodesWellFormed_lowerNodes condition hc) _⟩,
      wellFormed_lowerBlock onTrue htrue, wellFormed_lowerBlock onFalse hfalse⟩

theorem wellFormed_lowerStatement :
    (s : Statement) → s.WellFormed T → (lowerStatement s).1.WellFormed T
  | .declare _ _ _ value _, ⟨ht, hcomplete, hv⟩ | .ret _ value, ⟨ht, hcomplete, hv⟩ => by
    rw [lowerStatement]
    exact ⟨ht, isComplete_lowerExpr_of_ne_nil hcomplete,
      nodesWellFormed_saturate (nodesWellFormed_lowerNodes value hv) _⟩
  | .assign _ _ value, ⟨ht, htarget, hcomplete, hv⟩ => by
    rw [lowerStatement]
    exact ⟨ht, htarget, isComplete_lowerExpr hcomplete,
      nodesWellFormed_saturate (nodesWellFormed_lowerNodes value hv) _⟩
  | .eval _ value, ⟨ht, hcomplete, hv⟩ => by
    rw [lowerStatement]
    exact ⟨ht, isComplete_lowerExpr hcomplete,
      nodesWellFormed_saturate (nodesWellFormed_lowerNodes value hv) _⟩
  | .cond c, h => by
    rw [lowerStatement]
    exact wellFormed_lowerConditional c h
  | .loop _ condition body, ⟨ht, ⟨hcomplete, hc⟩, hb⟩ => by
    rw [lowerStatement]
    exact ⟨ht, ⟨isComplete_lowerExpr hcomplete,
      nodesWellFormed_saturate (nodesWellFormed_lowerNodes condition hc) _⟩,
      wellFormed_lowerBlock body hb⟩
  | .exit .., h | .next .., h => by
    rw [lowerStatement]
    exact h

theorem wellFormed_lowerBlock :
    (b : List Statement) → Block.WellFormed T b → Block.WellFormed T (lowerBlock b).1
  | [], _ => by
    rw [lowerBlock]
    exact trivial
  | s :: rest, ⟨hs, hrest⟩ => by
    rw [lowerBlock]
    exact ⟨wellFormed_lowerStatement s hs, wellFormed_lowerBlock rest hrest⟩

end

theorem wellFormed_lowerItems {items : List Item} (h : ∀ i ∈ items, i.WellFormed T) :
    ∀ i ∈ (lowerItems items).1, i.WellFormed T := by
  induction items with
  | nil => exact List.forall_mem_nil _
  | cons i rest ih =>
    obtain ⟨hi, hrest⟩ := List.forall_mem_cons.mp h
    cases i with
    | function f =>
      exact List.forall_mem_cons.mpr
        ⟨⟨hi.1, hi.2.1, wellFormed_lowerBlock f.body hi.2.2⟩, ih hrest⟩
    | global | imports | submodule => exact List.forall_mem_cons.mpr ⟨hi, ih hrest⟩

end FrontEnd.ShortCircuit
