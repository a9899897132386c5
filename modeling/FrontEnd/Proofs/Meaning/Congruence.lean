import FrontEnd.Proofs.Meaning.Refinement

/-!
# Replacing parts of a program

Where the parts of a program refine those of another one, the programs do. This holds
of each kind of tree on its own, and so of all trees whose expressions refine one
another under two ways to treat logical operators.
-/

namespace FrontEnd.Meaning

variable {α σ : Type}

theorem RefinedBy.single {xs ys : Option (List (Run α σ (Value α)))}
    (h : Option.Rel (List.Forall₂ RefinedBy) xs ys) :
    RefinedBy (Meaning.single xs) (Meaning.single ys) := by
  cases h with
  | none => exact refl _
  | some h =>
    rcases h with _ | ⟨hx, _ | ⟨_, _⟩⟩
    · exact refl _
    · exact hx
    · exact of_fault _

/-- Pairs of ways to treat logical operators of which the second one has no more faults. -/
inductive Order.Eases : Order → Order → Prop
  | refl (order : Order) : Eases order order
  | unchecked : Eases .checked .shortCircuit

namespace Interpretation

variable (I : Interpretation α σ) {order order' : Order} (turns : Nat)

theorem operator_refinedBy (h : order.Eases order') (o : Operator)
    {xs ys : List (Run α σ (Value α))} (hxy : List.Forall₂ RefinedBy xs ys) :
    RefinedBy (I.operator order o xs) (I.operator order' o ys) := by
  have plain : RefinedBy (I.operate o <$> inOrder xs) (I.operate o <$> inOrder ys) :=
    (RefinedBy.inOrder hxy).map _
  rcases hxy with _ | ⟨hl, _ | ⟨hr, _ | _⟩⟩
  case cons.cons.nil =>
    cases h with
    | refl =>
      cases ho : o.isLogical <;> cases order <;>
        simp only [operator, ho, RefinedBy.logical o hl hr, RefinedBy.logicalChecked o hl hr, plain]
    | unchecked =>
      cases ho : o.isLogical <;>
        simp only [operator, ho, plain, (RefinedBy.unchecked o _ _).trans (RefinedBy.logical o hl hr)]
  all_goals exact plain

/-- A node that may stand for another one, in an evaluation that treats logical operators in another
way. -/
def NodeRefinedBy (order order' : Order) (n n' : Node) : Prop :=
  n.operands = n'.operands ∧ ∀ {xs ys : List (Run α σ (Value α))}, List.Forall₂ RefinedBy xs ys →
    RefinedBy (I.node order turns n xs) (I.node order' turns n' ys)

/-- A node that is no conditional may stand for itself. -/
theorem nodeRefinedBy_self (h : order.Eases order') {n : Node}
    (hc : ∀ c, n = .cond c → RefinedBy (I.conditional order turns c) (I.conditional order' turns c)) :
    I.NodeRefinedBy turns order order' n n := by
  refine ⟨rfl, fun hxy => ?_⟩
  cases n with
  | op token o => simpa only [node] using I.operator_refinedBy h o hxy
  | call token path arity candidates =>
    simp only [node]
    exact (RefinedBy.inOrder hxy).bind fun _ => RefinedBy.refl _
  | cond c => simpa only [node] using hc c rfl
  | int | float | bool | var =>
    simp only [node]
    exact RefinedBy.refl _

theorem stack_refinedBy {e e' : Expr} (he : List.Forall₂ (I.NodeRefinedBy turns order order') e e')
    {xs ys : List (Run α σ (Value α))} (hxy : List.Forall₂ RefinedBy xs ys) :
    Option.Rel (List.Forall₂ RefinedBy) (I.stack order turns xs e) (I.stack order' turns ys e') := by
  induction he generalizing xs ys with
  | nil =>
    simp only [stack]
    exact .some hxy
  | cons hn _ ih =>
    obtain ⟨hk, hn⟩ := hn
    rw [stack, stack, ← hk, ← hxy.length_eq]
    split
    · exact .none
    · exact ih (.cons (hn (List.rel_reverse (List.forall₂_take _ hxy)))
        (List.forall₂_drop _ hxy))

theorem expr_refinedBy {e e' : Expr} (he : List.Forall₂ (I.NodeRefinedBy turns order order') e e') :
    RefinedBy (I.expr order turns e) (I.expr order' turns e') :=
  RefinedBy.single (I.stack_refinedBy turns he .nil)

/-- An expression whose conditionals may stand for themselves. -/
theorem expr_refinedBy_self (h : order.Eases order') {e : Expr} (hc : ∀ c, .cond c ∈ e →
      RefinedBy (I.conditional order turns c) (I.conditional order' turns c)) :
    RefinedBy (I.expr order turns e) (I.expr order' turns e) := by
  refine I.expr_refinedBy turns (List.forall₂_same.mpr fun n hn => ?_)
  exact I.nodeRefinedBy_self turns h fun c hnc => hc c (hnc ▸ hn)

theorem conditional_refinedBy {token token' : Nat} {condition condition' : Expr}
    {onTrue onTrue' onFalse onFalse' : Block} {a a' b b' : Bool}
    (hc : RefinedBy (I.expr order turns condition) (I.expr order' turns condition'))
    (ht : RefinedBy (I.block order turns onTrue) (I.block order' turns onTrue'))
    (hf : RefinedBy (I.block order turns onFalse) (I.block order' turns onFalse')) :
    RefinedBy (I.conditional order turns (.mk token condition onTrue onFalse a b))
      (I.conditional order' turns (.mk token' condition' onTrue' onFalse' a' b')) := by
  rw [conditional, conditional]
  exact hc.bind fun v => (RefinedBy.refl (asBool v)).bind fun _ => RefinedBy.ite ht hf

theorem declare_refinedBy {token token' : Nat} (name : String) (type : Option ValueType)
    {value value' : Expr} {slot slot' : Option Nat} (he : value.isEmpty = value'.isEmpty)
    (hv : value ≠ [] →
      RefinedBy (I.expr order turns value) (I.expr order' turns value')) :
    RefinedBy (I.statement order turns (.declare token name type value slot))
      (I.statement order' turns (.declare token' name type value' slot')) := by
  rw [statement, statement]
  exact (RefinedBy.optional he hv).bind fun _ => RefinedBy.refl _

theorem assign_refinedBy {token token' : Nat} {target target' : Target} {value value' : Expr}
    (ht : target.path = target'.path)
    (hv : RefinedBy (I.expr order turns value) (I.expr order' turns value')) :
    RefinedBy (I.statement order turns (.assign token target value))
      (I.statement order' turns (.assign token' target' value')) := by
  rw [statement, statement, ht]
  exact hv.bind fun _ => RefinedBy.refl _

theorem eval_refinedBy {token token' : Nat} {value value' : Expr}
    (hv : RefinedBy (I.expr order turns value) (I.expr order' turns value')) :
    RefinedBy (I.statement order turns (.eval token value))
      (I.statement order' turns (.eval token' value')) := by
  rwa [statement, statement]

theorem ret_refinedBy {token token' : Nat} {value value' : Expr}
    (he : value.isEmpty = value'.isEmpty)
    (hv : value ≠ [] →
      RefinedBy (I.expr order turns value) (I.expr order' turns value')) :
    RefinedBy (I.statement order turns (.ret token value))
      (I.statement order' turns (.ret token' value')) := by
  rw [statement, statement]
  exact (RefinedBy.optional he hv).bind fun _ => RefinedBy.refl _

theorem loop_refinedBy {token token' : Nat} {condition condition' : Expr} {body body' : Block}
    (hc : RefinedBy (I.expr order turns condition) (I.expr order' turns condition'))
    (hb : RefinedBy (I.block order turns body) (I.block order' turns body')) :
    RefinedBy (I.statement order turns (.loop token condition body))
      (I.statement order' turns (.loop token' condition' body')) := by
  rw [statement, statement]
  exact (RefinedBy.loop turns hc hb).bind fun _ => RefinedBy.refl _

theorem block_cons_refinedBy {s s' : Statement} {rest rest' : Block} (last : Value α)
    (hs : RefinedBy (I.statement order turns s) (I.statement order' turns s'))
    (hr : ∀ v, RefinedBy (I.blockFrom order turns v rest) (I.blockFrom order' turns v rest')) :
    RefinedBy (I.blockFrom order turns last (s :: rest))
      (I.blockFrom order' turns last (s' :: rest')) := by
  rw [blockFrom, blockFrom]
  exact hs.bind hr

/-- The second way to treat logical operators refines the first one on every expression of a kind
whose conditionals are refined. -/
def RefinesOn (order order' : Order) (Q : Expr → Prop) : Prop :=
  ∀ e, Q e →
    (∀ c, .cond c ∈ e →
      RefinedBy (I.conditional order turns c) (I.conditional order' turns c)) →
    RefinedBy (I.expr order turns e) (I.expr order' turns e)

variable {I turns} {Q : Expr → Prop}

mutual

theorem conditionals_refinedBy_of_exprs (hQ : I.RefinesOn turns order order' Q) :
    ∀ (e : List Node), (∀ q ∈ Expr.inner e, Q q) →
    ∀ c, .cond c ∈ e → RefinedBy (I.conditional order turns c) (I.conditional order' turns c)
  | [], _, c, hc => by cases hc
  | n :: rest, h, c, hc => by
    rw [Expr.inner, List.forall_mem_append] at h
    rcases List.mem_cons.mp hc with rfl | hr
    · exact conditional_refinedBy_of_exprs hQ c h.1
    · exact conditionals_refinedBy_of_exprs hQ rest h.2 c hr

theorem conditional_refinedBy_of_exprs (hQ : I.RefinesOn turns order order' Q) :
    ∀ (c : Conditional), (∀ q ∈ c.exprs, Q q) →
    RefinedBy (I.conditional order turns c) (I.conditional order' turns c)
  | .mk _ condition onTrue onFalse _ _, h => by
    rw [Conditional.exprs, List.forall_mem_append, List.forall_mem_append, List.forall_mem_cons] at h
    obtain ⟨⟨⟨hc, hi⟩, ht⟩, hf⟩ := h
    exact I.conditional_refinedBy turns
      (hQ condition hc (conditionals_refinedBy_of_exprs hQ condition hi))
      (block_refinedBy_of_exprs hQ onTrue ht I.void) (block_refinedBy_of_exprs hQ onFalse hf I.void)

theorem statement_refinedBy_of_exprs (hQ : I.RefinesOn turns order order' Q) :
    ∀ (s : Statement), (∀ q ∈ s.exprs, Q q) →
    RefinedBy (I.statement order turns s) (I.statement order' turns s)
  | .declare _ name type value _, h => by
    refine I.declare_refinedBy turns name type rfl fun hne => ?_
    rw [Statement.exprs, if_neg (by simpa using hne), List.forall_mem_cons] at h
    exact hQ value h.1 (conditionals_refinedBy_of_exprs hQ value h.2)
  | .assign _ target value, h => by
    rw [Statement.exprs, List.forall_mem_cons] at h
    exact I.assign_refinedBy turns rfl (hQ value h.1 (conditionals_refinedBy_of_exprs hQ value h.2))
  | .eval _ value, h => by
    rw [Statement.exprs, List.forall_mem_cons] at h
    exact I.eval_refinedBy turns (hQ value h.1 (conditionals_refinedBy_of_exprs hQ value h.2))
  | .ret _ value, h => by
    refine I.ret_refinedBy turns rfl fun hne => ?_
    rw [Statement.exprs, if_neg (by simpa using hne), List.forall_mem_cons] at h
    exact hQ value h.1 (conditionals_refinedBy_of_exprs hQ value h.2)
  | .cond c, h => by
    rw [Statement.exprs] at h
    rw [statement, statement]
    exact conditional_refinedBy_of_exprs hQ c h
  | .loop _ condition body, h => by
    rw [Statement.exprs, List.forall_mem_append, List.forall_mem_cons] at h
    exact I.loop_refinedBy turns
      (hQ condition h.1.1 (conditionals_refinedBy_of_exprs hQ condition h.1.2))
      (block_refinedBy_of_exprs hQ body h.2 I.void)
  | .exit _ _, _ | .next _, _ => by
    rw [statement, statement]
    exact RefinedBy.refl _

theorem block_refinedBy_of_exprs (hQ : I.RefinesOn turns order order' Q) :
    ∀ (b : List Statement), (∀ q ∈ Block.exprs b, Q q) →
    ∀ last, RefinedBy (I.blockFrom order turns last b) (I.blockFrom order' turns last b)
  | [], _, last => by
    rw [blockFrom, blockFrom]
    exact RefinedBy.refl _
  | s :: rest, h, last => by
    rw [Block.exprs, List.forall_mem_append] at h
    exact I.block_cons_refinedBy turns last (statement_refinedBy_of_exprs hQ s h.1)
      fun v => block_refinedBy_of_exprs hQ rest h.2 v

end

end Interpretation

end FrontEnd.Meaning
