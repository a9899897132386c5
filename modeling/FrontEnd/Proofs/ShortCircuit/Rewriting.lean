import FrontEnd.Proofs.Meaning.Congruence
import FrontEnd.Proofs.Meaning.Stack
import FrontEnd.ShortCircuit

/-!
# Rewriting one expression

A scan puts complete operands on a stack until it meets an operator that must become a
conditional. What it has put there is as an operand on its own what it is in the
expression, and scanning it again finds nothing to rewrite; so the conditional means
what the operator meant, its parts need no rewriting, and the expression gets shorter.
-/

namespace FrontEnd

namespace ShortCircuit

open Meaning

theorem nodesOf_cons (o : Operand) (os : List Operand) :
    nodesOf (o :: os) = nodesOf os ++ o.nodes := by
  simp [nodesOf]

theorem nodesOf_append (os os' : List Operand) :
    nodesOf (os ++ os') = nodesOf os' ++ nodesOf os := by
  simp [nodesOf]

/-- What a scan puts on its stack: a complete operand, which needs no rewriting when it is scanned
again. -/
structure Operand.Scanned (o : Operand) : Prop where
  isComplete : o.nodes.IsComplete
  passes : ∀ seen rest, rewriteFrom seen (o.nodes ++ rest) = rewriteFrom (o :: seen) rest

theorem Operand.Scanned.rewriteOnce_nodes {o : Operand} (h : o.Scanned) :
    rewriteOnce o.nodes = none := by
  have hp := h.passes [] []
  rw [List.append_nil] at hp
  rw [rewriteOnce, hp, rewriteFrom]

/-- Operands that are scanned one after the other. -/
theorem rewriteFrom_nodesOf {os : List Operand} (h : ∀ o ∈ os, o.Scanned) (seen : List Operand)
    (rest : Expr) : rewriteFrom seen (nodesOf os ++ rest) = rewriteFrom (os ++ seen) rest := by
  induction os generalizing rest with
  | nil => rfl
  | cons o os ih =>
    rw [List.forall_mem_cons] at h
    rw [nodesOf_cons, List.append_assoc, ih h.2, h.1.passes, List.cons_append]

theorem rewriteFrom_cons (seen : List Operand) (n : Node) (rest : Expr) :
    rewriteFrom seen (n :: rest) =
      if seen.length < n.operands then none
      else match conditional? n (seen.take n.operands) with
        | some c => some (nodesOf (seen.drop n.operands) ++ .cond c :: rest)
        | none => rewriteFrom (.ofNode n (seen.take n.operands) :: seen.drop n.operands) rest :=
  rfl

/-- A node that is not rewritten makes an operand of its operands. -/
theorem Operand.Scanned.ofNode {n : Node} {own : List Operand} (h : ∀ o ∈ own, o.Scanned)
    (hlen : own.length = n.operands) (hn : conditional? n own = none) :
    (Operand.ofNode n own).Scanned := by
  constructor
  · refine Expr.isComplete_flatten_append (fun e he => ?_) (by simpa using hlen)
    obtain ⟨o, ho, rfl⟩ := List.mem_map.mp he
    exact (h o (List.mem_reverse.mp ho)).isComplete
  · intro seen rest
    rw [Operand.ofNode, List.append_assoc, rewriteFrom_nodesOf h, List.singleton_append,
      rewriteFrom_cons, if_neg (by rw [List.length_append]; omega), List.take_left' hlen,
      List.drop_left' hlen, hn]
    rfl

/-- A conditional stands for a logical operator and its two operands. -/
theorem conditional?_eq_some {n : Node} {own : List Operand} {c : Conditional}
    (h : conditional? n own = some c) :
    ∃ token o right left, n = .op token o ∧ own = [right, left] ∧ o.isLogical = true ∧
      c = conditionalOf token o left.nodes right.nodes := by
  unfold conditional? at h
  split at h
  · next token o right left =>
    split at h
    · next ho =>
      cases h
      rw [Bool.and_eq_true] at ho
      exact ⟨token, o, right, left, rfl, rfl, ho.1, rfl⟩
    · cases h
  · cases h

/-- Scanned operands are on the stack in the order of the scan. -/
theorem stack_nodesOf {α σ : Type} (I : Interpretation α σ) (order : Order) (turns : Nat)
    {os : List Operand} (h : ∀ o ∈ os, o.Scanned) :
    I.stack order turns [] (nodesOf os) = some (os.map fun o => I.expr order turns o.nodes) := by
  rw [nodesOf, I.stack_flatten order turns]
  · simp [Function.comp_def]
  · intro e he
    obtain ⟨o, ho, rfl⟩ := List.mem_map.mp he
    exact (h o (List.mem_reverse.mp ho)).isComplete

/-- What one rewrite does: it takes a logical operator with its operands, all that is before them
being complete operands as well, and puts a conditional in their place. -/
inductive Rewrite : Expr → Expr → Prop
  | intro (before : List Operand) (left right : Operand) (token : Nat) (o : Operator) (after : Expr)
      (ho : o.isLogical = true) (hb : ∀ o ∈ before, o.Scanned) (hl : left.Scanned)
      (hr : right.Scanned) :
      Rewrite (nodesOf before ++ left.nodes ++ right.nodes ++ .op token o :: after)
        (nodesOf before ++ .cond (conditionalOf token o left.nodes right.nodes) :: after)

theorem rewriteFrom_eq_some {seen : List Operand} (hs : ∀ o ∈ seen, o.Scanned) {rest e : Expr}
    (h : rewriteFrom seen rest = some e) : Rewrite (nodesOf seen ++ rest) e := by
  induction rest generalizing seen with
  | nil => simp [rewriteFrom] at h
  | cons n rest ih =>
    rw [rewriteFrom_cons] at h
    split at h
    · cases h
    · next hn =>
      obtain ⟨own, below, hown, hlen, rfl⟩ : ∃ own below, seen.take n.operands = own ∧
          own.length = n.operands ∧ seen = own ++ below :=
        ⟨_, _, rfl, by rw [List.length_take]; omega, (List.take_append_drop _ _).symm⟩
      rw [hown, List.drop_left' hlen] at h
      rw [List.forall_mem_append] at hs
      rw [nodesOf_append]
      split at h
      · next c hc =>
        obtain ⟨token, o, right, left, rfl, rfl, ho, rfl⟩ := conditional?_eq_some hc
        cases h
        have hrl : right.Scanned ∧ left.Scanned := by simpa using hs.1
        have hnodes : nodesOf [right, left] = left.nodes ++ right.nodes := by simp [nodesOf]
        rw [hnodes, ← List.append_assoc]
        exact .intro below left right token o rest ho hs.2 hrl.2 hrl.1
      · next hc =>
        have hr := ih (List.forall_mem_cons.mpr ⟨.ofNode hs.1 hlen hc, hs.2⟩) h
        rw [nodesOf_cons] at hr
        simpa only [Operand.ofNode, List.append_assoc, List.singleton_append] using hr

theorem rewriteOnce_eq_some {e e' : Expr} (h : rewriteOnce e = some e') : Rewrite e e' :=
  rewriteFrom_eq_some (by simp) h

namespace Rewrite

variable {e e' : Expr}

theorem ne_nil (h : Rewrite e e') : e' ≠ [] := by
  cases h
  simp

theorem length_lt (h : Rewrite e e') : e'.length < e.length := by
  obtain ⟨before, left, right, token, o, after, ho, hb, hl, hr⟩ := h
  have hpos := List.length_pos_of_ne_nil hl.isComplete.ne_nil
  simp only [List.length_append, List.length_cons]
  omega

/-- No expression inside a conditional comes to need rewriting. -/
theorem inner (h : Rewrite e e') (hi : ∀ q ∈ Expr.inner e, rewriteOnce q = none) :
    ∀ q ∈ Expr.inner e', rewriteOnce q = none := by
  obtain ⟨before, left, right, token, o, after, ho, hb, hl, hr⟩ := h
  have hc : rewriteOnce (if o = .and then left.nodes ++ [.op token .not] else left.nodes) = none := by
    split
    · rw [rewriteOnce, hl.passes]
      rfl
    · exact hl.rewriteOnce_nodes
  have hnot : Expr.inner (if o = .and then left.nodes ++ [.op token .not] else left.nodes) =
      Expr.inner left.nodes := by
    split
    · simp [Expr.inner_append, Expr.inner, Node.exprs]
    · rfl
  simp only [Expr.inner_append, Expr.inner, List.forall_mem_append] at hi
  obtain ⟨⟨⟨hbefore, hleft⟩, hright⟩, -, hafter⟩ := hi
  simp only [Expr.inner_append, Expr.inner, Node.exprs, conditionalOf, Conditional.ofBlocks,
    Conditional.exprs, Block.exprs, Statement.exprs, hnot, List.append_nil, List.forall_mem_append,
    List.forall_mem_cons]
  exact ⟨hbefore, ⟨⟨⟨hc, hleft⟩, rfl, by simp⟩, hr.rewriteOnce_nodes, hright⟩, hafter⟩

end Rewrite

/-- After all rewrites of an expression, none is left to do. -/
theorem rewriteOnce_getLastD (bound : Nat) (e : Expr) (h : e.length ≤ bound) :
    rewriteOnce ((rewritesUpTo bound e).getLastD e) = none := by
  induction bound generalizing e with
  | zero =>
    rw [List.eq_nil_of_length_eq_zero (Nat.le_zero.mp h)]
    rfl
  | succ bound ih =>
    rw [rewritesUpTo]
    cases he : rewriteOnce e with
    | none => exact he
    | some e' =>
      have hlt := (rewriteOnce_eq_some he).length_lt
      rw [List.getLastD_cons]
      exact ih e' (by omega)

/-- What one rewrite keeps, all of them keep. -/
theorem saturate_induction {P : Expr → Prop} (hP : ∀ e e', Rewrite e e' → P e → P e')
    {e : Expr} (h : P e) (count : Nat) : P (saturate (e, count)).1 := by
  suffices hb : ∀ (bound : Nat) (e : Expr), P e → P ((rewritesUpTo bound e).getLastD e) from hb _ e h
  intro bound
  induction bound with
  | zero => exact fun e he => he
  | succ bound ih =>
    intro e he
    rw [rewritesUpTo]
    cases hr : rewriteOnce e with
    | none => exact he
    | some e' =>
      rw [List.getLastD_cons]
      exact ih e' (hP e e' (rewriteOnce_eq_some hr) he)

theorem rewriteOnce_saturate (e : Expr) (count : Nat) :
    rewriteOnce (saturate (e, count)).1 = none :=
  rewriteOnce_getLastD e.length e (Nat.le_refl _)

theorem isEmpty_saturate (e : Expr) (count : Nat) :
    (saturate (e, count)).1.isEmpty = e.isEmpty := by
  refine saturate_induction (P := fun e' => e'.isEmpty = e.isEmpty) (fun q q' h hq => ?_) rfl count
  have hne : q ≠ [] := List.ne_nil_of_length_pos (Nat.zero_lt_of_lt h.length_lt)
  rw [← hq, List.isEmpty_eq_false_iff.mpr h.ne_nil, List.isEmpty_eq_false_iff.mpr hne]

/-- A value stays a value, and nothing takes the place of none. -/
theorem isEmpty_lowerExpr (e : Expr) : (lowerExpr e).1.isEmpty = e.isEmpty := by
  refine (isEmpty_saturate _ _).trans ?_
  cases e <;> rfl

/-- Rewriting leaves nothing to rewrite inside the conditionals of an expression, if nothing was. -/
theorem inner_saturate {e : Expr} (h : ∀ q ∈ Expr.inner e, rewriteOnce q = none) (count : Nat) :
    ∀ q ∈ Expr.inner (saturate (e, count)).1, rewriteOnce q = none :=
  saturate_induction (P := fun e => ∀ q ∈ Expr.inner e, rewriteOnce q = none)
    (fun _ _ hr hi => hr.inner hi) h count

end ShortCircuit

end FrontEnd
