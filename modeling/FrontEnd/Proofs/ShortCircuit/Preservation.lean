import FrontEnd.Proofs.ShortCircuit.Rewriting

/-!
# Lowering keeps what a program does

Each rewrite refines the expression, checked as it is for operands that are no booleans.
Where nothing is left to rewrite, right operands of logical operators have no effect, so
that it does not matter whether they are evaluated. Hence a lowered program, in which
all operands are evaluated, does what the program did with short circuits.
-/

namespace FrontEnd.ShortCircuit

open Meaning

variable {α σ : Type} (I : Interpretation α σ) (turns : Nat)

theorem block_eval (order : Order) (token : Nat) (e : Expr) :
    I.block order turns [.eval token e] = I.expr order turns e := by
  simp [Interpretation.block, Interpretation.blockFrom, Interpretation.statement,
    Interpretation.expr]

theorem expr_bool (order : Order) (token : Nat) (b : Bool) :
    I.expr order turns [.bool token b] = pure (.bool b) := by
  simp [Interpretation.expr, Interpretation.stack, Node.operands, single, Interpretation.node]

/-- The negation of a complete expression. -/
theorem expr_not (order : Order) {e : Expr} (h : e.IsComplete) (token : Nat) :
    I.expr order turns (e ++ [.op token .not]) = do
      let v ← I.expr order turns e
      return I.operate .not [v] := by
  rw [Interpretation.expr, Interpretation.stack_append, I.stack_of_isComplete order turns h]
  simp [Interpretation.stack, Node.operands, Operator.arity, Operator.isPrefixOp, single,
    Interpretation.node, Interpretation.operator, inOrder]

theorem and_or_of_isLogical {o : Operator} (h : o.isLogical = true) : o = .and ∨ o = .or := by
  cases o <;> simp_all [Operator.isLogical]

/-- The conditional does what the operator did. -/
theorem logicalChecked_refinedBy {o : Operator} (ho : o.isLogical = true) {left right : Expr}
    (hl : left.IsComplete) (token : Nat) :
    RefinedBy (logicalChecked o (I.expr .checked turns left) (I.expr .checked turns right))
      (I.conditional .checked turns (conditionalOf token o left right)) := by
  have hc : I.conditional .checked turns (conditionalOf token o left right) =
      (do
        let v ← I.expr .checked turns (if o = .and then left ++ [.op token .not] else left)
        let b ← asBool v
        if b then pure (.bool (o == .or)) else I.expr .checked turns right) := by
    rw [conditionalOf, Conditional.ofBlocks, Interpretation.conditional]
    have ht := block_eval I turns .checked token [.bool token (o == .or)]
    have hf := block_eval I turns .checked token right
    rw [expr_bool] at ht
    rw [Interpretation.block] at ht hf
    rw [ht, hf]
    rfl
  rw [hc]
  obtain rfl | rfl := and_or_of_isLogical ho
  · rw [if_pos rfl, expr_not I turns .checked hl, bind_assoc]
    refine (RefinedBy.refl _).bind fun v => ?_
    rcases v with b | a
    · rw [pure_bind, I.operate_not]
      cases b with
      | false => exact RefinedBy.probe_bind _ _
      | true => exact RefinedBy.asBool_bind _
    · exact RefinedBy.of_fault _
  · rw [if_neg (by decide)]
    refine (RefinedBy.refl _).bind fun v => ?_
    rcases v with b | a
    · cases b with
      | false => exact RefinedBy.asBool_bind _
      | true => exact RefinedBy.probe_bind _ _
    · exact RefinedBy.of_fault _

/-- A rewrite keeps what an expression does. -/
theorem Rewrite.refinedBy {e e' : Expr} (h : Rewrite e e') :
    RefinedBy (I.expr .checked turns e) (I.expr .checked turns e') := by
  obtain ⟨before, left, right, token, o, after, ho, hb, hl, hr⟩ := h
  have hk : (Node.op token o).operands = 2 := by
    obtain rfl | rfl := and_or_of_isLogical ho <;> rfl
  have hop : ∀ xs, I.stack .checked turns
      (I.expr .checked turns right.nodes :: I.expr .checked turns left.nodes :: xs)
      (.op token o :: after) = I.stack .checked turns
        (logicalChecked o (I.expr .checked turns left.nodes) (I.expr .checked turns right.nodes)
          :: xs) after := by
    intro xs
    rw [Interpretation.stack, hk, if_neg (by simp)]
    simp [Interpretation.node, Interpretation.operator, ho]
  rw [Interpretation.expr, Interpretation.expr, I.stack_append, I.stack_append, I.stack_append,
    I.stack_append, stack_nodesOf I .checked turns hb, Option.bind_some, Option.bind_some,
    I.stack_of_isComplete .checked turns hl.isComplete, Option.bind_some,
    I.stack_of_isComplete .checked turns hr.isComplete, Option.bind_some, hop, I.stack_cond]
  refine RefinedBy.single (I.stack_refinedBy turns (List.forall₂_same.mpr fun n _ =>
    I.nodeRefinedBy_self turns (.refl _) fun _ _ => RefinedBy.refl _) (.cons ?_ ?_))
  · exact logicalChecked_refinedBy I turns ho hl.isComplete token
  · exact List.forall₂_same.mpr fun x _ => RefinedBy.refl x

/-- A run that only reads the store. -/
def IsPure (x : Run α σ (Value α)) : Prop := ∃ f : σ → Value α, ∀ s, x s = .ok (f s) s

theorem isPure_inOrder {xs : List (Run α σ (Value α))} (h : ∀ x ∈ xs, IsPure x) :
    ∃ f : σ → List (Value α), ∀ s, inOrder xs s = .ok (f s) s := by
  induction xs with
  | nil => exact ⟨fun _ => [], fun _ => rfl⟩
  | cons x xs ih =>
    rw [List.forall_mem_cons] at h
    obtain ⟨f, hf⟩ := h.1
    obtain ⟨g, hg⟩ := ih h.2
    refine ⟨fun s => f s :: g s, fun s => ?_⟩
    rw [inOrder, bind_ok (hf s), bind_ok (hg s)]
    rfl

/-- Without an effect of its own, a node of operands without one only reads the store. -/
theorem isPure_node {n : Node} (hn : n.hasEffect = false) {xs : List (Run α σ (Value α))}
    (h : ∀ x ∈ xs, IsPure x) : IsPure (I.node .strict turns n xs) := by
  cases n with
  | call | cond => cases hn
  | var token path =>
    refine ⟨fun s => I.read path s, fun s => ?_⟩
    rw [Interpretation.node]
    rfl
  | op token o =>
    obtain ⟨f, hf⟩ := isPure_inOrder h
    refine ⟨fun s => I.operate o (f s), fun s => ?_⟩
    rw [Interpretation.node, I.operator_strict, ← bind_pure_comp, bind_ok (hf s)]
    rfl
  | int token value type =>
    refine ⟨fun _ => I.int value type, fun s => ?_⟩
    rw [Interpretation.node]
    rfl
  | float token value type =>
    refine ⟨fun _ => I.float value type, fun s => ?_⟩
    rw [Interpretation.node]
    rfl
  | bool token value =>
    refine ⟨fun _ => .bool value, fun s => ?_⟩
    rw [Interpretation.node]
    rfl

section

variable {o : Operator} {l r : Run α σ (Value α)} {s s' t : σ} {a b : Bool}

theorem logicalChecked_of_left (hl : l s = .ok (.bool a) s') :
    logicalChecked o l r s = (if a = decider o then
      (do probe r; return .bool a) else (do return .bool (← asBool (← r))) :
        Run α σ (Value α)) s' := by
  rw [logicalChecked, bind_ok hl]
  rfl

/-- A right operand that is no boolean is a fault, whether its value matters or not. -/
theorem isFault_logicalChecked_of_other {v : α} (hl : l s = .ok (.bool a) s')
    (hr : r s' = .ok (.other v) t) : IsFault (logicalChecked o l r s) := by
  rw [logicalChecked_of_left hl]
  split
  · have hprobe : probe r s' = .error .fault s' := by rw [probe, hr]
    rw [bind_error hprobe]
    trivial
  · rw [bind_ok hr]
    trivial

theorem not_isFault_right (hl : l s = .ok (.bool a) s')
    (hs : ¬IsFault (logicalChecked o l r s)) : ¬IsFault (r s') := by
  rw [logicalChecked_of_left hl] at hs
  intro hfault
  apply hs
  rcases hr : r s' with ⟨v, t⟩ | ⟨e, t⟩
  · simp [hr] at hfault
  · rw [hr, isFault_error] at hfault
    subst hfault
    split
    · have hprobe : probe r s' = .error .fault s' := by rw [probe, hr]
      rw [bind_error hprobe]
      trivial
    · rw [bind_error hr]
      trivial

theorem logicalChecked_of_bools (hl : l s = .ok (.bool a) s') (hr : r s' = .ok (.bool b) s') :
    logicalChecked o l r s = .ok (.bool (if a = decider o then a else b)) s' := by
  rw [logicalChecked_of_left hl]
  by_cases ha : a = decider o
  · have hprobe : probe r s' = .ok () s' := by rw [probe, hr]
    rw [if_pos ha, if_pos ha, bind_ok hprobe]
    rfl
  · rw [if_neg ha, if_neg ha, bind_ok hr]
    rfl

theorem operate_of_bools (ho : o.isLogical = true) (hl : l s = .ok (.bool a) s')
    (hr : r s' = .ok (.bool b) s') :
    (I.operate o <$> inOrder [l, r]) s = .ok (.bool (if a = decider o then a else b)) s' := by
  rw [← bind_pure_comp, inOrder, bind_assoc, bind_ok hl, inOrder, bind_assoc, bind_assoc,
    bind_ok hr, ← I.operate_logical ho]
  rfl

end

/-- It does not matter whether a right operand without an effect is evaluated. -/
theorem logicalChecked_refinedBy_strict {o : Operator} (ho : o.isLogical = true)
    {l l' r r' : Run α σ (Value α)} (hl : RefinedBy l l') (hr : RefinedBy r r') (hp : IsPure r') :
    RefinedBy (logicalChecked o l r) (I.operate o <$> inOrder [l', r']) := by
  obtain ⟨f, hf⟩ := hp
  intro s hs
  rcases hx : l s with ⟨⟨a⟩ | ⟨v⟩, s'⟩ | ⟨e, s'⟩
  · have hx' : l' s = .ok (.bool a) s' := by rw [hl s (by simp [hx]), hx]
    have hy : r s' = .ok (f s') s' := by rw [← hr s' (not_isFault_right hx hs), hf]
    cases hb : f s' with
    | bool b =>
      rw [hb] at hy
      rw [logicalChecked_of_bools hx hy, operate_of_bools I ho hx' (by rw [hf, hb])]
    | other v =>
      rw [hb] at hy
      exact absurd (isFault_logicalChecked_of_other hx hy) hs
  · exfalso
    apply hs
    rw [logicalChecked, bind_ok hx]
    trivial
  · have he : ¬IsFault (l s) := by
      rw [logicalChecked, bind_error hx] at hs
      simpa [hx] using hs
    rw [logicalChecked, bind_error hx, ← bind_pure_comp, inOrder, bind_assoc,
      bind_error (by rw [hl s he, hx])]

/-- An operand of a scan, with the runs that stand for it before and after all its operators have
come to evaluate their operands. -/
structure Tracked (o : Operand) (x x' : Run α σ (Value α)) : Prop where
  refinedBy : RefinedBy x x'
  isPure : o.effect = false → IsPure x'

/-- A logical operator on tracked operands, if it is not rewritten. -/
theorem operator_refinedBy_strict {token : Nat} {o : Operator} (ho : o.isLogical = true)
    {own : List (Operand × Run α σ (Value α) × Run α σ (Value α))}
    (h : ∀ t ∈ own, Tracked t.1 t.2.1 t.2.2)
    (hn : conditional? (.op token o) (own.map Prod.fst) = none)
    (hxs : List.Forall₂ RefinedBy (own.map fun t => t.2.1).reverse
      (own.map fun t => t.2.2).reverse) :
    RefinedBy (I.operator .checked o (own.map fun t => t.2.1).reverse)
      (I.operate o <$> inOrder (own.map fun t => t.2.2).reverse) := by
  by_cases hlen : own.length = 2
  · obtain ⟨tr, tl, rfl⟩ := List.length_eq_two.mp hlen
    have hr : tr.1.effect = false := by simpa [conditional?, ho] using hn
    have htr := h tr (by simp)
    have hop := logicalChecked_refinedBy_strict I ho (h tl (by simp)).refinedBy
      htr.refinedBy (htr.isPure hr)
    simpa [Interpretation.operator, ho] using hop
  · rw [I.operator_of_length_ne_two _ _ (by simpa using hlen)]
    exact (RefinedBy.inOrder hxs).map _

/-- A node on tracked operands, if it is not rewritten. -/
theorem Tracked.ofNode {n : Node} {own : List (Operand × Run α σ (Value α) × Run α σ (Value α))}
    (h : ∀ t ∈ own, Tracked t.1 t.2.1 t.2.2)
    (hn : conditional? n (own.map Prod.fst) = none)
    (hc : ∀ c, n = .cond c →
      RefinedBy (I.conditional .checked turns c) (I.conditional .strict turns c)) :
    Tracked (.ofNode n (own.map Prod.fst))
      (I.node .checked turns n (own.map fun t => t.2.1).reverse)
      (I.node .strict turns n (own.map fun t => t.2.2).reverse) := by
  have hxs : List.Forall₂ RefinedBy (own.map fun t => t.2.1).reverse
      (own.map fun t => t.2.2).reverse := by
    refine List.rel_reverse (List.forall₂_map_left_iff.mpr (List.forall₂_map_right_iff.mpr ?_))
    exact List.forall₂_same.mpr fun t ht => (h t ht).refinedBy
  constructor
  · cases n with
    | op token o =>
      rw [Interpretation.node, Interpretation.node, I.operator_strict]
      cases ho : o.isLogical with
      | false =>
        rw [I.operator_of_not_isLogical ho]
        exact (RefinedBy.inOrder hxs).map _
      | true => exact operator_refinedBy_strict I ho h hn hxs
    | cond c =>
      rw [Interpretation.node, Interpretation.node]
      exact hc c rfl
    | call token path arity candidates =>
      rw [Interpretation.node, Interpretation.node]
      exact (RefinedBy.inOrder hxs).bind fun _ => RefinedBy.refl _
    | int | float | bool | var =>
      rw [Interpretation.node, Interpretation.node]
      exact RefinedBy.refl _
  · intro he
    rw [Operand.ofNode, Bool.or_eq_false_iff, List.any_eq_false] at he
    refine isPure_node I turns he.1 fun x hx => ?_
    obtain ⟨t, ht, rfl⟩ := List.mem_map.mp (List.mem_reverse.mp hx)
    exact (h t ht).isPure (by simpa using he.2 t.1 (List.mem_map_of_mem ht))

theorem stack_refinedBy_strict
    (ts : List (Operand × Run α σ (Value α) × Run α σ (Value α)))
    (h : ∀ t ∈ ts, Tracked t.1 t.2.1 t.2.2) {rest : Expr}
    (hr : rewriteFrom (ts.map Prod.fst) rest = none)
    (hc : ∀ c, .cond c ∈ rest →
      RefinedBy (I.conditional .checked turns c) (I.conditional .strict turns c)) :
    Option.Rel (List.Forall₂ RefinedBy) (I.stack .checked turns (ts.map fun t => t.2.1) rest)
      (I.stack .strict turns (ts.map fun t => t.2.2) rest) := by
  induction rest generalizing ts with
  | nil =>
    rw [Interpretation.stack, Interpretation.stack]
    refine .some (List.forall₂_map_left_iff.mpr (List.forall₂_map_right_iff.mpr ?_))
    exact List.forall₂_same.mpr fun t ht => (h t ht).refinedBy
  | cons n rest ih =>
    rw [rewriteFrom_cons] at hr
    rw [Interpretation.stack, Interpretation.stack]
    simp only [List.length_map] at hr ⊢
    split at hr
    · next hlt =>
      rw [if_pos hlt, if_pos hlt]
      exact .none
    · next hlt =>
      rw [if_neg hlt, if_neg hlt]
      rw [← List.map_take, ← List.map_drop] at hr
      split at hr
      · cases hr
      · next hn =>
        have hnew := Tracked.ofNode I turns (fun t ht => h t (List.mem_of_mem_take ht)) hn
          fun c hnc => hc c (hnc ▸ List.mem_cons_self)
        have hi := ih ((_, _, _) :: ts.drop n.operands)
          (List.forall_mem_cons.mpr ⟨hnew, fun t ht => h t (List.mem_of_mem_drop ht)⟩) hr
          fun c hcr => hc c (List.mem_cons_of_mem _ hcr)
        simpa only [List.map_cons, List.map_take, List.map_drop] using hi

/-- Where nothing needs rewriting, all operands may be evaluated. -/
theorem refinesOn_strict :
    I.RefinesOn turns .checked .strict fun e => rewriteOnce e = none := fun _ he hc =>
  RefinedBy.single (stack_refinedBy_strict I turns [] (by simp) he hc)

/-- What is checked may be left unchecked, everywhere. -/
theorem refinesOn_shortCircuit : I.RefinesOn turns .checked .shortCircuit fun _ => True :=
  fun _ _ hc => I.expr_refinedBy_self turns .unchecked hc

end FrontEnd.ShortCircuit
