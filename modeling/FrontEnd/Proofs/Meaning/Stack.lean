import FrontEnd.Proofs.Meaning.Evaluation
import FrontEnd.Proofs.Tree.Postfix

/-!
# Stacks of operands and of values

What a complete expression puts on the stack does not depend on what is there. Where
all operands are evaluated, an expression can as well be run on a stack of values, one
node after the other: that is the order in which its operands are evaluated.
-/

namespace FrontEnd.Meaning

variable {α σ : Type}

theorem inOrder_append (xs ys : List (Run α σ (Value α))) :
    inOrder (xs ++ ys) = (do
      let vs ← inOrder xs
      let ws ← inOrder ys
      return vs ++ ws) := by
  induction xs with
  | nil => simp [inOrder]
  | cons x xs ih => simp [inOrder, ih]

theorem inOrder_pure (vs : List (Value α)) :
    inOrder (vs.map pure) = (pure vs : Run α σ (List (Value α))) := by
  induction vs with
  | nil => rfl
  | cons v vs ih => simp [inOrder, ih]

theorem length_of_inOrder {xs : List (Run α σ (Value α))} {s s' : σ} {vs : List (Value α)}
    (h : inOrder xs s = .ok vs s') : vs.length = xs.length := by
  induction xs generalizing s vs with
  | nil =>
    cases h
    rfl
  | cons x xs ih =>
    rw [inOrder, bind_apply] at h
    split at h
    · next v t hx =>
      rw [bind_apply] at h
      split at h
      · next ws t' hxs =>
        cases h
        rw [List.length_cons, ih hxs, List.length_cons]
      · cases h
    · cases h

namespace Interpretation

variable (I : Interpretation α σ) (order : Order) (turns : Nat)

theorem stack_append (xs : List (Run α σ (Value α))) (e e' : Expr) :
    I.stack order turns xs (e ++ e') =
      (I.stack order turns xs e).bind fun ys => I.stack order turns ys e' := by
  induction e generalizing xs with
  | nil => simp [stack]
  | cons n rest ih =>
    rw [List.cons_append, stack, stack]
    split
    · rfl
    · exact ih _

theorem length_stack (xs : List (Run α σ (Value α))) (e : Expr) :
    (I.stack order turns xs e).map List.length = Expr.depthAfter xs.length e := by
  induction e generalizing xs with
  | nil => rfl
  | cons n rest ih =>
    rw [stack, Expr.depthAfter]
    split
    · rfl
    · rw [ih, List.length_cons, List.length_drop]

/-- Operands further down on the stack do not matter. -/
theorem stack_below {xs ys : List (Run α σ (Value α))} {e : Expr}
    (h : I.stack order turns xs e = some ys) (below : List (Run α σ (Value α))) :
    I.stack order turns (xs ++ below) e = some (ys ++ below) := by
  induction e generalizing xs with
  | nil =>
    simp only [stack, Option.some.injEq] at h
    simp [stack, h]
  | cons n rest ih =>
    rw [stack] at h ⊢
    split at h
    · cases h
    · next hn =>
      have hn' : n.operands ≤ xs.length := by omega
      rw [if_neg (by rw [List.length_append]; omega), List.take_append_of_le_length hn',
        List.drop_append_of_le_length hn']
      exact ih h

/-- A complete expression puts its own run on the stack. -/
theorem stack_of_isComplete {e : Expr} (h : e.IsComplete) (xs : List (Run α σ (Value α))) :
    I.stack order turns xs e = some (I.expr order turns e :: xs) := by
  have hl := I.length_stack order turns [] e
  rw [List.length_nil, h, Option.map_eq_some_iff] at hl
  obtain ⟨ys, hys, hlen⟩ := hl
  obtain ⟨y, rfl⟩ := List.length_eq_one_iff.mp hlen
  have hx := I.stack_below order turns hys xs
  rw [expr, hys, single]
  exact hx

/-- An expression that is not complete is a fault. -/
theorem expr_of_not_isComplete {e : Expr} (h : ¬ e.IsComplete) :
    I.expr order turns e = throw .fault := by
  have hl := I.length_stack order turns [] e
  rw [expr]
  match hs : I.stack order turns [] e with
  | none | some [] | some (_ :: _ :: _) => rfl
  | some [x] =>
    rw [hs] at hl
    exact absurd hl.symm h

/-- A prefix operator after a complete expression works on its value. -/
theorem expr_append_op {e : Expr} (h : e.IsComplete) {o : Operator} (ho : o.arity = 1)
    (token : Nat) :
    I.expr order turns (e ++ [.op token o]) =
      (do return I.operate o [← I.expr order turns e]) := by
  rw [expr, stack_append, I.stack_of_isComplete order turns h, Option.bind_some, stack,
    if_neg (by simp [Node.operands, ho])]
  simp [Node.operands, ho, stack, single, node, operator, inOrder]

/-- Complete expressions put their runs on the stack one after the other. -/
theorem stack_flatten {es : List Expr} (h : ∀ e ∈ es, e.IsComplete)
    (xs : List (Run α σ (Value α))) :
    I.stack order turns xs es.flatten = some ((es.map (I.expr order turns)).reverse ++ xs) := by
  induction es generalizing xs with
  | nil => simp [stack]
  | cons e es ih =>
    rw [List.forall_mem_cons] at h
    rw [List.flatten_cons, stack_append, I.stack_of_isComplete order turns h.1, Option.bind_some,
      ih h.2]
    simp

/-- Some nodes, run on a stack of values, of which the last one comes first. -/
def values (vs : List (Value α)) : List Node → Run α σ (List (Value α))
  | [] => return vs
  | n :: rest => do
    if vs.length < n.operands then throw .fault
    let v ← I.node .strict turns n ((vs.take n.operands).reverse.map pure)
    values (v :: vs.drop n.operands) rest

theorem values_cons {n : Node} {vs : List (Value α)} (h : n.operands ≤ vs.length) (rest : Expr) :
    I.values turns vs (n :: rest) = (do
      let v ← I.node .strict turns n ((vs.take n.operands).reverse.map pure)
      I.values turns (v :: vs.drop n.operands) rest) := by
  rw [values, if_neg (Nat.not_lt.mpr h)]

/-- A node that does not find its operands is a fault. -/
theorem values_cons_of_lt {n : Node} {vs : List (Value α)} (h : vs.length < n.operands)
    (rest : Expr) : I.values turns vs (n :: rest) = throw .fault := by
  rw [values, if_pos h]
  rfl

theorem values_cond (vs : List (Value α)) (c : Conditional) (rest : Expr) :
    I.values turns vs (.cond c :: rest) = (do
      let v ← I.conditional .strict turns c
      I.values turns (v :: vs) rest) := by
  rw [I.values_cons turns (show (Node.cond c).operands ≤ vs.length from Nat.zero_le _), node]
  rfl

theorem values_append (vs : List (Value α)) (e e' : Expr) :
    I.values turns vs (e ++ e') = I.values turns vs e >>= fun ws => I.values turns ws e' := by
  induction e generalizing vs with
  | nil => simp [values]
  | cons n rest ih =>
    rw [List.cons_append]
    rcases Nat.lt_or_ge vs.length n.operands with h | h
    · rw [I.values_cons_of_lt turns h, I.values_cons_of_lt turns h]
      rfl
    · rw [I.values_cons turns h, I.values_cons turns h, bind_assoc]
      exact bind_congr fun v => ih _

/-- An expression, run on a stack of values. -/
def onStack (e : Expr) : Run α σ (Value α) := do
  match ← I.values turns [] e with
  | [v] => return v
  | _ => throw .fault

/-- A node evaluates its operands first, and then works on their values. -/
theorem node_strict {n : Node} {xs : List (Run α σ (Value α))} (h : xs.length = n.operands) :
    I.node .strict turns n xs = (do
      let vs ← inOrder xs
      I.node .strict turns n (vs.map pure)) := by
  cases n with
  | op token o => simp [node, I.operator_strict, inOrder_pure]
  | call token path arity candidates => simp [node, inOrder_pure]
  | int | float | bool | var | cond =>
    rw [List.length_eq_zero_iff.mp h]
    simp [node, inOrder]

/-- Operands that are on the stack can be evaluated before the nodes that take them. -/
theorem values_of_stack {xs ys : List (Run α σ (Value α))} {e : Expr}
    (h : I.stack .strict turns xs e = some ys) :
    (do
      let vs ← inOrder xs.reverse
      I.values turns vs.reverse e) = List.reverse <$> inOrder ys.reverse := by
  induction e generalizing xs with
  | nil =>
    cases h
    simp [values]
  | cons n rest ih =>
    rw [stack] at h
    split at h
    · cases h
    · next hn =>
      obtain ⟨own, below, hlen, rfl⟩ : ∃ own below, own.length = n.operands ∧ xs = own ++ below :=
        ⟨_, _, by rw [List.length_take]; omega, (List.take_append_drop n.operands xs).symm⟩
      rw [List.take_left' hlen, List.drop_left' hlen] at h
      rw [← ih h, List.reverse_append, inOrder_append, List.reverse_cons, inOrder_append]
      simp only [inOrder, bind_assoc, pure_bind]
      refine bind_congr fun ws => ?_
      rw [I.node_strict turns (by simpa using hlen), bind_assoc]
      refine bind_congr_ok fun s os s' hos => ?_
      have hk : os.reverse.length = n.operands := by
        rw [List.length_reverse, length_of_inOrder hos, List.length_reverse, hlen]
      rw [List.reverse_append, I.values_cons turns (by rw [List.length_append]; omega),
        List.take_left' hk, List.drop_left' hk]
      simp

/-- A complete expression puts its value on a stack of values. -/
theorem values_of_isComplete {e : Expr} (h : e.IsComplete) (vs : List (Value α)) :
    I.values turns vs e = (do return (← I.expr .strict turns e) :: vs) := by
  have hv := I.values_of_stack turns (I.stack_of_isComplete .strict turns h (vs.map pure))
  rw [← List.map_reverse, inOrder_pure, pure_bind, List.reverse_reverse, List.reverse_cons,
    ← List.map_reverse, inOrder_append, inOrder_pure, pure_bind] at hv
  rw [hv]
  simp [inOrder]

/-- A complete expression whose operands are all evaluated can be run on a stack of values. -/
theorem onStack_eq_expr {e : Expr} (h : e.IsComplete) :
    I.onStack turns e = I.expr .strict turns e := by
  rw [onStack, I.values_of_isComplete turns h]
  simp

end Interpretation

end FrontEnd.Meaning
