import FrontEnd.Tree.Basic

/-!
# Postfix order

The number of values on a stack while an expression is run. An expression is complete
if it never takes more values than there are, and leaves one.
-/

namespace FrontEnd

namespace Expr

/-- The number of values on a stack that holds `depth` values before some nodes, if they find
enough of them. -/
def depthAfter (depth : Nat) : List Node → Option Nat
  | [] => some depth
  | n :: rest =>
    if depth < n.operands then none else depthAfter (depth - n.operands + 1) rest

/-- Run on an empty stack, the expression leaves one value. -/
def IsComplete (e : Expr) : Prop := depthAfter 0 e = some 1

instance (e : Expr) : Decidable e.IsComplete := inferInstanceAs (Decidable (_ = _))

/-- A node that finds its operands leaves one value in their place. -/
theorem depthAfter_cons {depth : Nat} {n : Node} (h : n.operands ≤ depth) (rest : Expr) :
    depthAfter depth (n :: rest) = depthAfter (depth - n.operands + 1) rest := by
  rw [depthAfter, if_neg (Nat.not_lt.mpr h)]

/-- Only the numbers of operands count. -/
theorem depthAfter_congr {e e' : Expr} (h : e'.map Node.operands = e.map Node.operands)
    (depth : Nat) : depthAfter depth e' = depthAfter depth e := by
  induction e generalizing e' depth with
  | nil => rw [List.map_eq_nil_iff.mp h]
  | cons n rest ih =>
    obtain ⟨n', rest', rfl, hn, hrest⟩ := List.map_eq_cons_iff.mp h
    rw [depthAfter, depthAfter, hn, ih hrest]

theorem depthAfter_append (depth : Nat) (e e' : Expr) :
    depthAfter depth (e ++ e') = (depthAfter depth e).bind fun d => depthAfter d e' := by
  induction e generalizing depth with
  | nil => rfl
  | cons n rest ih =>
    rw [List.cons_append, depthAfter, depthAfter]
    split
    · rfl
    · exact ih _

/-- Values further down on the stack are not touched. -/
theorem depthAfter_add {depth d : Nat} {e : Expr} (h : depthAfter depth e = some d)
    (below : Nat) : depthAfter (depth + below) e = some (d + below) := by
  induction e generalizing depth with
  | nil =>
    cases h
    rfl
  | cons n rest ih =>
    rw [depthAfter] at h ⊢
    split at h
    · cases h
    · rw [if_neg (by omega)]
      have hb := ih h
      rwa [show depth - n.operands + 1 + below = depth + below - n.operands + 1 by omega] at hb

/-- A complete expression puts one more value on any stack. -/
theorem IsComplete.depthAfter {e : Expr} (h : e.IsComplete) (depth : Nat) :
    depthAfter depth e = some (depth + 1) := by
  have hd := depthAfter_add h depth
  rwa [Nat.zero_add, Nat.add_comm] at hd

theorem IsComplete.ne_nil {e : Expr} (h : e.IsComplete) : e ≠ [] := by
  rintro rfl
  cases h

/-- Complete operands put as many values on the stack as there are. -/
theorem depthAfter_flatten {es : List Expr} (h : ∀ e ∈ es, e.IsComplete) (depth : Nat) :
    Expr.depthAfter depth es.flatten = some (depth + es.length) := by
  induction es generalizing depth with
  | nil => rfl
  | cons e es ih =>
    rw [List.forall_mem_cons] at h
    rw [List.flatten_cons, depthAfter_append, h.1.depthAfter, Option.bind_some, ih h.2,
      List.length_cons]
    congr 1
    omega

/-- A node after complete operands, as many as it takes, makes a complete expression. -/
theorem isComplete_flatten_append {es : List Expr} (h : ∀ e ∈ es, e.IsComplete) {n : Node}
    (hn : es.length = n.operands) : IsComplete (es.flatten ++ [n]) := by
  rw [IsComplete, depthAfter_append, depthAfter_flatten h, Option.bind_some, Expr.depthAfter,
    if_neg (by omega), Expr.depthAfter]
  congr 1
  omega

end Expr

end FrontEnd
