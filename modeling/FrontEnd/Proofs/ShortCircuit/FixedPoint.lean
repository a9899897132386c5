import FrontEnd.Proofs.ShortCircuit.Lowering
import FrontEnd.Proofs.WellFormed.Lowering

/-!
# The fixed point of lowering

The operators that a scan leaves alone are those whose right operand has no effect. So a
lowered block has no others, at any depth, and lowering it again does nothing. Every
rewrite takes one logical operator away and moves the others, which counts the rewrites.
-/

namespace FrontEnd

/-- A logical operator. -/
def Node.isLogical : Node → Bool
  | .op _ o => o.isLogical
  | _ => false

/-- No logical operator of the expression itself has a right operand that calls a function or holds a
conditional. The right operand is the complete expression that ends before the operator. -/
def Expr.HasPureRights (e : Expr) : Prop :=
  ∀ before right token o after, e = before ++ right ++ Node.op token o :: after →
    o.isLogical = true → IsComplete right → ∀ n ∈ right, n.hasEffect = false

namespace ShortCircuit

/-! ## What a scan leaves alone -/

/-- The flag of an operand tells whether a node of it may have an effect. -/
def Operand.IsFlagged (o : Operand) : Prop := o.effect = o.nodes.any Node.hasEffect

theorem any_hasEffect_nodesOf {os : List Operand} (h : ∀ o ∈ os, o.IsFlagged) :
    (nodesOf os).any Node.hasEffect = os.any Operand.effect := by
  induction os with
  | nil => rfl
  | cons o os ih =>
    obtain ⟨ho, hos⟩ := List.forall_mem_cons.mp h
    rw [nodesOf_cons, List.any_append, ih hos, List.any_cons, Bool.or_comm, ho]

theorem Operand.IsFlagged.ofNode (n : Node) {own : List Operand} (h : ∀ o ∈ own, o.IsFlagged) :
    (Operand.ofNode n own).IsFlagged := by
  rw [IsFlagged, Operand.ofNode, List.any_append, any_hasEffect_nodesOf h, List.any_cons,
    List.any_nil, Bool.or_false, Bool.or_comm]

/-- The operands that a node takes off the stack, and those that it leaves. -/
theorem exists_operands {seen : List Operand} {n : Node} (h : n.operands ≤ seen.length) :
    ∃ own below, seen = own ++ below ∧ own.length = n.operands ∧ seen.take n.operands = own ∧
      seen.drop n.operands = below :=
  ⟨_, _, (List.take_append_drop _ _).symm, by rw [List.length_take]; omega, rfl, rfl⟩

/-- If all right operands are pure, there is nothing to rewrite. -/
theorem rewriteFrom_eq_none {seen : List Operand} (hs : ∀ o ∈ seen, o.Scanned ∧ o.IsFlagged)
    {rest : Expr} (h : Expr.HasPureRights (nodesOf seen ++ rest)) : rewriteFrom seen rest = none := by
  induction rest generalizing seen with
  | nil => rfl
  | cons n rest ih =>
    rw [rewriteFrom_cons]
    split
    · rfl
    · next hn =>
      obtain ⟨own, below, rfl, hlen, htake, hdrop⟩ := exists_operands (Nat.not_lt.mp hn)
      rw [htake, hdrop]
      rw [List.forall_mem_append] at hs
      cases hc : conditional? n own with
      | some c =>
        obtain ⟨token, o, right, left, rfl, rfl, ho, -⟩ := conditional?_eq_some hc
        have hright := hs.1 right List.mem_cons_self
        have hpure : ∀ m ∈ right.nodes, m.hasEffect = false := by
          refine h (nodesOf below ++ left.nodes) right.nodes token o rest ?_ ho hright.1.isComplete
          simp [nodesOf]
        have heffect : right.effect = false := by
          rw [hright.2, List.any_eq_false]
          intro m hm
          rw [hpure m hm]
          exact Bool.false_ne_true
        rw [conditional?, heffect, Bool.and_false, if_neg Bool.false_ne_true] at hc
        cases hc
      | none =>
        refine ih (List.forall_mem_cons.mpr ⟨⟨?_, ?_⟩, hs.2⟩) ?_
        · exact .ofNode (fun o ho => (hs.1 o ho).1) hlen hc
        · exact .ofNode n fun o ho => (hs.1 o ho).2
        · rw [nodesOf_cons, Operand.ofNode, ← List.append_assoc, ← nodesOf_append, List.append_assoc]
          exact h

/-- A scan that rewrites nothing puts what it has passed on the stack, if it finds all operands. -/
theorem exists_scanned (top below : List Operand) (htop : ∀ o ∈ top, o.IsFlagged)
    {passed rest : Expr} {depth : Nat} (hdepth : Expr.depthAfter top.length passed = some depth)
    (h : rewriteFrom (top ++ below) (passed ++ rest) = none) :
    ∃ top', top'.length = depth ∧ (∀ o ∈ top', o.IsFlagged) ∧ nodesOf top' = nodesOf top ++ passed ∧
      rewriteFrom (top' ++ below) rest = none := by
  induction passed generalizing top with
  | nil =>
    cases hdepth
    exact ⟨top, rfl, htop, (List.append_nil _).symm, h⟩
  | cons n passed ih =>
    rw [Expr.depthAfter] at hdepth
    split at hdepth
    · cases hdepth
    · next hn =>
      obtain ⟨own, others, rfl, hlen, -, -⟩ := exists_operands (Nat.not_lt.mp hn)
      rw [List.forall_mem_append] at htop
      rw [List.cons_append, rewriteFrom_cons, if_neg (by simp only [List.length_append]; omega),
        List.append_assoc, List.take_left' hlen, List.drop_left' hlen] at h
      split at h
      · cases h
      · obtain ⟨top', hlen', htop', hnodes, hrest⟩ :=
          ih (.ofNode n own :: others) (List.forall_mem_cons.mpr ⟨.ofNode n htop.1, htop.2⟩)
            (by rw [← hdepth, List.length_cons, List.length_append, hlen, Nat.add_sub_cancel_left]) h
        refine ⟨top', hlen', htop', ?_, hrest⟩
        rw [hnodes, nodesOf_cons, Operand.ofNode, nodesOf_append]
        simp only [List.append_assoc, List.singleton_append]

/-- Where there is nothing to rewrite all right operands are pure, if no operand is missing. -/
theorem hasPureRights_of_rewriteOnce {e : Expr} (hcomplete : e.IsComplete)
    (h : rewriteOnce e = none) : e.HasPureRights := by
  rintro before right token o after rfl ho hright n hn
  have htwo : (Node.op token o).operands = 2 := arity_of_isLogical ho
  rw [Expr.IsComplete, List.append_assoc, Expr.depthAfter_append] at hcomplete
  obtain ⟨depth, hbefore, hrest⟩ := Option.bind_eq_some_iff.mp hcomplete
  rw [Expr.depthAfter_append, hright.depthAfter, Option.bind_some, Expr.depthAfter, htwo] at hrest
  rw [rewriteOnce, List.append_assoc] at h
  -- What comes before the right operand leaves the left one, and the right one comes on top of it.
  obtain ⟨below, hlength, -, -, hscan⟩ :=
    exists_scanned [] [] (List.forall_mem_nil _) hbefore h
  rw [List.append_nil] at hscan
  obtain ⟨top, htop, hflags, hnodes, hoperator⟩ :=
    exists_scanned [] below (List.forall_mem_nil _) hright hscan
  obtain ⟨last, rfl⟩ := List.length_eq_one_iff.mp htop
  have hnodes : last.nodes = right := by simpa [nodesOf] using hnodes
  cases below with
  | nil =>
    rw [← hlength] at hrest
    cases hrest
  | cons left below =>
    have hnone : conditional? (.op token o) [last, left] = none := by
      rw [rewriteFrom_cons, htwo, if_neg (by simp)] at hoperator
      split at hoperator
      · cases hoperator
      · next hnone => exact hnone
    have heffect : last.effect = false := by simpa [conditional?, ho] using hnone
    rw [hflags last List.mem_cons_self, hnodes, List.any_eq_false] at heffect
    exact Bool.eq_false_iff.mpr (heffect n hn)

/-! ## Nothing to rewrite -/

theorem saturate_eq_self {e : Expr} (h : rewriteOnce e = none) (count : Nat) :
    saturate (e, count) = (e, count) := by
  have hnone : rewrites e = [] := by
    rw [rewrites]
    cases e with
    | nil => rfl
    | cons n rest => rw [List.length_cons, rewritesUpTo, h]
  rw [saturate, hnone]
  rfl

mutual

theorem lowerNode_eq_self : (n : Node) → (∀ q ∈ n.exprs, rewriteOnce q = none) →
    lowerNode n = (n, 0)
  | .cond c, h => by
    rw [lowerNode, lowerConditional_eq_self c h]
  | .int .., _ | .float .., _ | .bool .., _ | .var .., _ | .op .., _ | .call .., _ => by
    simp only [lowerNode]

theorem lowerNodes_eq_self : (e : List Node) → (∀ q ∈ Expr.inner e, rewriteOnce q = none) →
    lowerNodes e = (e, 0)
  | [], _ => by rw [lowerNodes]
  | n :: rest, h => by
    rw [Expr.inner, List.forall_mem_append] at h
    rw [lowerNodes, lowerNode_eq_self n h.1, lowerNodes_eq_self rest h.2]

theorem lowerConditional_eq_self : (c : Conditional) → (∀ q ∈ c.exprs, rewriteOnce q = none) →
    lowerConditional c = (c, 0)
  | .mk _ condition onTrue onFalse _ _, h => by
    rw [Conditional.exprs, List.forall_mem_append, List.forall_mem_append, List.forall_mem_cons] at h
    obtain ⟨⟨⟨hc, hinner⟩, ht⟩, hf⟩ := h
    rw [lowerConditional, lowerNodes_eq_self condition hinner, saturate_eq_self hc,
      lowerBlock_eq_self onTrue ht, lowerBlock_eq_self onFalse hf]

theorem lowerStatement_eq_self : (s : Statement) → (∀ q ∈ s.exprs, rewriteOnce q = none) →
    lowerStatement s = (s, 0)
  | .declare _ _ _ value _, h | .ret _ value, h => by
    rw [lowerStatement]
    cases value with
    | nil => rfl
    | cons n rest =>
      rw [Statement.exprs, List.isEmpty_cons, if_neg Bool.false_ne_true, List.forall_mem_cons] at h
      rw [lowerNodes_eq_self _ h.2, saturate_eq_self h.1]
  | .assign _ _ value, h | .eval _ value, h => by
    rw [Statement.exprs, List.forall_mem_cons] at h
    rw [lowerStatement, lowerNodes_eq_self value h.2, saturate_eq_self h.1]
  | .cond c, h => by
    rw [lowerStatement, lowerConditional_eq_self c h]
  | .loop _ condition body, h => by
    rw [Statement.exprs, List.forall_mem_append, List.forall_mem_cons] at h
    rw [lowerStatement, lowerNodes_eq_self condition h.1.2, saturate_eq_self h.1.1,
      lowerBlock_eq_self body h.2]
  | .exit .., _ | .next .., _ => by rw [lowerStatement]

/-- A block in which no expression needs rewriting is left as it is. -/
theorem lowerBlock_eq_self : (b : List Statement) → (∀ q ∈ Block.exprs b, rewriteOnce q = none) →
    lowerBlock b = (b, 0)
  | [], _ => by rw [lowerBlock]
  | s :: rest, h => by
    rw [Block.exprs, List.forall_mem_append] at h
    rw [lowerBlock, lowerStatement_eq_self s h.1, lowerBlock_eq_self rest h.2]

end

theorem lowerExpr_eq_self {e : Expr} (h : ∀ q ∈ e :: Expr.inner e, rewriteOnce q = none) :
    lowerExpr e = (e, 0) := by
  rw [List.forall_mem_cons] at h
  rw [lowerExpr, lowerNodes_eq_self e h.2, saturate_eq_self h.1]

/-! ## Counting operators -/

/-- The number of logical operators in some expressions. -/
def logicals (es : List Expr) : Nat := es.flatten.countP Node.isLogical

@[simp]
theorem logicals_nil : logicals [] = 0 := rfl

@[simp]
theorem logicals_cons (e : Expr) (es : List Expr) :
    logicals (e :: es) = e.countP Node.isLogical + logicals es := by
  rw [logicals, List.flatten_cons, List.countP_append]
  rfl

@[simp]
theorem logicals_append (es es' : List Expr) :
    logicals (es ++ es') = logicals es + logicals es' := by
  rw [logicals, List.flatten_append, List.countP_append]
  rfl

/-- A rewrite takes away one logical operator. All others are there afterwards, at some depth. -/
theorem Rewrite.logicals_eq {e e' : Expr} (h : Rewrite e e') :
    logicals (e' :: Expr.inner e') + 1 = logicals (e :: Expr.inner e) := by
  obtain ⟨before, left, right, token, o, after, ho, hb, hl, hr⟩ := h
  have hoperator : (Node.op token o).isLogical = true := ho
  have hcondition : ∀ e : Expr, e = (if o = .and then left.nodes ++ [.op token .not] else left.nodes) →
      e.countP Node.isLogical = left.nodes.countP Node.isLogical ∧
        Expr.inner e = Expr.inner left.nodes := by
    rintro e rfl
    split
    · simp [Node.isLogical, Operator.isLogical, Expr.inner_append, Expr.inner, Node.exprs]
    · exact ⟨rfl, rfl⟩
  obtain ⟨hcount, hinner⟩ := hcondition _ rfl
  have hbool : Node.isLogical (.bool token (o == .or)) = false := rfl
  have hcond : ∀ c, Node.isLogical (.cond c) = false := fun _ => rfl
  simp only [logicals_cons, logicals_append, logicals_nil, List.countP_append, List.countP_cons,
    List.countP_nil, Expr.inner_append, Expr.inner, Node.exprs, conditionalOf, Conditional.ofBlocks,
    Conditional.exprs, Block.exprs, Statement.exprs, hcount, hinner, hoperator, hbool, hcond,
    List.append_nil, if_true, Bool.false_eq_true, if_false]
  omega

/-- The number of rewrites is that of the operators that they take away. -/
theorem saturate_logicals (x : Expr × Nat) :
    (saturate x).2 + logicals ((saturate x).1 :: Expr.inner (saturate x).1) =
      x.2 + logicals (x.1 :: Expr.inner x.1) := by
  obtain ⟨e, count⟩ := x
  suffices hb : ∀ (bound : Nat) (e : Expr), (rewritesUpTo bound e).length +
      logicals ((rewritesUpTo bound e).getLastD e :: Expr.inner ((rewritesUpTo bound e).getLastD e)) =
        logicals (e :: Expr.inner e) by
    have h := hb e.length e
    rw [saturate, rewrites]
    dsimp only
    omega
  intro bound
  induction bound with
  | zero => exact fun e => Nat.zero_add _
  | succ bound ih =>
    intro e
    rw [rewritesUpTo]
    cases hr : rewriteOnce e with
    | none => exact Nat.zero_add _
    | some e' =>
      have hone := (rewriteOnce_eq_some hr).logicals_eq
      have hrest := ih e'
      dsimp only
      rw [List.getLastD_cons, List.length_cons]
      omega

theorem countP_lowerNodes (e : Expr) :
    (lowerNodes e).1.countP Node.isLogical = e.countP Node.isLogical := by
  induction e with
  | nil => rw [lowerNodes]
  | cons n rest ih =>
    have hn : (lowerNode n).1.isLogical = n.isLogical := by
      cases n with
      | cond c => rw [lowerNode]; rfl
      | _ => simp only [lowerNode]
    rw [lowerNodes, List.countP_cons, List.countP_cons, hn, ih]

/-- Lowering an expression takes away as many operators as it counts, if lowering its nodes does. -/
theorem lowerExpr_logicals_of {e : Expr}
    (h : (lowerNodes e).2 + logicals (Expr.inner (lowerNodes e).1) = logicals (Expr.inner e)) :
    (saturate (lowerNodes e)).2 +
        logicals ((saturate (lowerNodes e)).1 :: Expr.inner (saturate (lowerNodes e)).1) =
      logicals (e :: Expr.inner e) := by
  have hown := countP_lowerNodes e
  have hrewrites := saturate_logicals (lowerNodes e)
  rw [logicals_cons (lowerNodes e).1] at hrewrites
  rw [logicals_cons e]
  omega

/-- An expression that is left out counts nothing. -/
theorem logicals_optional (e : Expr) :
    logicals (if e.isEmpty then [] else e :: Expr.inner e) = logicals (e :: Expr.inner e) := by
  cases e with
  | nil => rfl
  | cons n rest => rw [List.isEmpty_cons, if_neg Bool.false_ne_true]

mutual

theorem lowerNode_logicals : (n : Node) →
    (lowerNode n).2 + logicals (lowerNode n).1.exprs = logicals n.exprs
  | .cond c => by
    rw [lowerNode, Node.exprs, Node.exprs]
    exact lowerConditional_logicals c
  | .int .. | .float .. | .bool .. | .var .. | .op .. | .call .. => by
    simp only [lowerNode, Nat.zero_add]

theorem lowerNodes_logicals : (e : List Node) →
    (lowerNodes e).2 + logicals (Expr.inner (lowerNodes e).1) = logicals (Expr.inner e)
  | [] => by rw [lowerNodes, Nat.zero_add]
  | n :: rest => by
    have hn := lowerNode_logicals n
    have hrest := lowerNodes_logicals rest
    rw [lowerNodes]
    dsimp only
    rw [Expr.inner, Expr.inner, logicals_append, logicals_append]
    omega

theorem lowerConditional_logicals : (c : Conditional) →
    (lowerConditional c).2 + logicals (lowerConditional c).1.exprs = logicals c.exprs
  | .mk _ condition onTrue onFalse _ _ => by
    have hc := lowerExpr_logicals_of (lowerNodes_logicals condition)
    have ht := lowerBlock_logicals onTrue
    have hf := lowerBlock_logicals onFalse
    rw [lowerConditional, Conditional.exprs, Conditional.exprs]
    simp only [logicals_append]
    omega

theorem lowerStatement_logicals : (s : Statement) →
    (lowerStatement s).2 + logicals (lowerStatement s).1.exprs = logicals s.exprs
  | .declare _ _ _ value _ | .ret _ value => by
    rw [lowerStatement, Statement.exprs, Statement.exprs, logicals_optional, logicals_optional]
    exact lowerExpr_logicals_of (lowerNodes_logicals value)
  | .assign _ _ value | .eval _ value => by
    rw [lowerStatement, Statement.exprs, Statement.exprs]
    exact lowerExpr_logicals_of (lowerNodes_logicals value)
  | .cond c => by
    rw [lowerStatement, Statement.exprs, Statement.exprs]
    exact lowerConditional_logicals c
  | .loop _ condition body => by
    have hc := lowerExpr_logicals_of (lowerNodes_logicals condition)
    have hb := lowerBlock_logicals body
    rw [lowerStatement, Statement.exprs, Statement.exprs]
    simp only [logicals_append]
    omega
  | .exit .. | .next .. => by rw [lowerStatement, Nat.zero_add]

/-- Lowering a block takes away as many operators as it counts. -/
theorem lowerBlock_logicals : (b : List Statement) →
    (lowerBlock b).2 + logicals (Block.exprs (lowerBlock b).1) = logicals (Block.exprs b)
  | [] => by rw [lowerBlock, Nat.zero_add]
  | s :: rest => by
    have hs := lowerStatement_logicals s
    have hrest := lowerBlock_logicals rest
    rw [lowerBlock]
    dsimp only
    rw [Block.exprs, Block.exprs, logicals_append, logicals_append]
    omega

end

/-- **Lowering reaches a clean fixed point.** In a lowered block no logical operator, at any depth,
has a right operand with an effect, and all expressions are complete as before. The count that comes
with it is the number of logical operators that are gone. Lowering once more finds nothing to do, and
an expression whose right operands are pure, at all depths, is left as it is. -/
theorem lowerBlock_fixedPoint {T : Nat → Prop} {b : Block} (h : Block.WellFormed T b) :
    (∀ e ∈ Block.exprs (lowerBlock b).1, Expr.IsComplete e ∧ Expr.HasPureRights e) ∧
    (lowerBlock b).2 + logicals (Block.exprs (lowerBlock b).1) = logicals (Block.exprs b) ∧
    lowerBlock (lowerBlock b).1 = ((lowerBlock b).1, 0) ∧
    ∀ e : Expr, (∀ q ∈ e :: Expr.inner e, q.HasPureRights) → lowerExpr e = (e, 0) := by
  refine ⟨fun e he => ?_, lowerBlock_logicals b, ?_, fun e he => ?_⟩
  · have hcomplete := Block.WellFormed.exprs _ (wellFormed_lowerBlock b h) e he
    exact ⟨hcomplete, hasPureRights_of_rewriteOnce hcomplete (rewriteOnce_lowerBlock b e he)⟩
  · exact lowerBlock_eq_self _ (rewriteOnce_lowerBlock b)
  · refine lowerExpr_eq_self fun q hq => rewriteFrom_eq_none (List.forall_mem_nil _) ?_
    exact he q hq

/-- `a || if b && f() { true } else { false }` and then `return c && d`: the first two of the three
operators are rewritten, the outer one because of the conditional and the inner one because of the
call. -/
theorem lowerBlock_fixedPoint_nested :
    let nested : Conditional := .ofBlocks 1
      [.var 2 ["b"] none, .call 3 ["f"] 0 [], .op 4 .and] [.eval 5 [.bool 5 true]]
      [.eval 6 [.bool 6 false]]
    let b : Block := [.eval 0 [.var 0 ["a"] none, .cond nested, .op 7 .or],
      .ret 8 [.var 9 ["c"] none, .var 10 ["d"] none, .op 11 .and]]
    Block.WellFormed (fun _ => True) b ∧ (lowerBlock b).2 = 2 ∧
      logicals (Block.exprs (lowerBlock b).1) = 1 ∧
      (∀ e ∈ Block.exprs (lowerBlock b).1, Expr.HasPureRights e) ∧
      lowerBlock (lowerBlock b).1 = ((lowerBlock b).1, 0) := by
  intro nested b
  have hc : nested.WellFormed fun _ => True :=
    ⟨trivial, ⟨by decide, trivial, trivial, trivial, trivial⟩,
      ⟨⟨trivial, by decide, trivial, trivial⟩, trivial⟩,
      ⟨⟨trivial, by decide, trivial, trivial⟩, trivial⟩⟩
  have hb : Block.WellFormed (fun _ => True) b :=
    ⟨⟨trivial, by decide, trivial, hc, trivial, trivial⟩,
      ⟨trivial, fun _ => by decide, trivial, trivial, trivial, trivial⟩, trivial⟩
  obtain ⟨hclean, hcount, hagain, -⟩ := lowerBlock_fixedPoint hb
  have htwo : (lowerBlock b).2 = 2 := by decide
  have hthree : logicals (Block.exprs b) = 3 := by decide
  exact ⟨hb, htwo, by omega, fun e he => (hclean e he).2, hagain⟩

end ShortCircuit

end FrontEnd
