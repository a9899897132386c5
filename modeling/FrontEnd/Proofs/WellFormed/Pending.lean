import FrontEnd.Proofs.Grammar.Reading
import FrontEnd.Proofs.References.Spelling
import FrontEnd.Proofs.Tree.WellFormed

/-!
# Operands that are waited for

While an expression is read, the complete nodes leave on a stack one value for each
operand that something pending has already got, and one more unless an operand must come
next. So an expression that ends where nothing is pending is complete.
-/

namespace FrontEnd

theorem Operator.arity_pos (o : Operator) : 1 ≤ o.arity := by
  unfold arity
  split <;> omega

theorem Operator.arity_of_ofCompound? {m : Token.Mark} {o : Operator}
    (h : ofCompound? m = some o) : o.arity = 2 := by
  cases m <;> cases h <;> rfl

namespace Grammar

namespace Pending

/-- The number of operands that it has got, without the one that it waits for. -/
def operands : Pending → Nat
  | op operator _ => operator.arity - 1
  | group _ => 0
  | call _ _ _ commas => commas

/-- The tokens that it refers to. -/
def tokens : Pending → List Nat
  | op _ token => [token]
  | group paren => [paren]
  | call token _ paren _ => [token, paren]

end Pending

/-- The operands that have been read for what is pending. -/
def operandsOf : List Pending → Nat
  | [] => 0
  | q :: rest => q.operands + operandsOf rest

variable {T : Nat → Prop} {output : List Node} {pending : List Pending} {extra : Nat}

/-- Nodes that are complete, the last one first, leave the operands of what is pending, and `extra`
values above them. -/
structure Stacked (T : Nat → Prop) (extra : Nat) (output : List Node) (pending : List Pending) :
    Prop where
  nodes : Expr.NodesWellFormed T output
  tokens : ∀ q ∈ pending, ∀ t ∈ q.tokens, T t
  depth : Expr.depthAfter 0 output.reverse = some (operandsOf pending + extra)

namespace Stacked

/-- One more node takes its operands and leaves a value. -/
theorem push {n : Node} {pending' : List Pending} {extra' : Nat} (h : Stacked T extra output pending)
    (hn : n.WellFormed T) (htokens : ∀ q ∈ pending', ∀ t ∈ q.tokens, T t)
    (hoperands : operandsOf pending + extra + 1 = operandsOf pending' + extra' + n.operands)
    (hextra : 1 ≤ operandsOf pending' + extra') : Stacked T extra' (n :: output) pending' := by
  refine ⟨⟨hn, h.nodes⟩, htokens, ?_⟩
  rw [List.reverse_cons, Expr.depthAfter_append, h.depth, Option.bind_some,
    Expr.depthAfter_cons (by omega), Expr.depthAfter]
  congr 1
  omega

/-- An operator on top of what is pending takes its operands. -/
theorem op {operator : Operator} {token : Nat}
    (h : Stacked T 1 output (.op operator token :: pending)) :
    Stacked T 1 (.op token operator :: output) pending := by
  have hpos := operator.arity_pos
  have htokens := List.forall_mem_cons.mp h.tokens
  refine h.push (htokens.1 token List.mem_cons_self) htokens.2 ?_ (Nat.le_add_left _ _)
  simp only [operandsOf, Pending.operands, Node.operands]
  omega

theorem flushGroup (h : Stacked T 1 output pending) :
    Stacked T 1 (Progress.flushGroup output pending).1 (Progress.flushGroup output pending).2 := by
  fun_induction Progress.flushGroup output pending with
  | case1 output operator token rest ih => exact ih h.op
  | case2 output pending => exact h

theorem flushFor {incoming : Operator} (h : Stacked T 1 output pending) :
    Stacked T 1 (Progress.flushFor incoming output pending).1
      (Progress.flushFor incoming output pending).2 := by
  fun_induction Progress.flushFor incoming output pending with
  | case1 output operator token rest hflush ih => exact ih h.op
  | case2 | case3 => exact h

/-- An expression that ends here is complete; where it is not closed the parenthesis is one of its
tokens. -/
theorem finish (h : Stacked T 1 output pending) :
    match Progress.finish output pending with
    | .ok e => e.WellFormed T
    | .error paren => T paren := by
  fun_induction Progress.finish output pending with
  | case1 output =>
    refine ⟨h.depth, Expr.nodesWellFormed_iff.mpr fun n hn => ?_⟩
    exact Expr.nodesWellFormed_iff.mp h.nodes n (List.mem_reverse.mp hn)
  | case2 output operator token rest ih => exact ih h.op
  | case3 output paren rest =>
    exact h.tokens (.group paren) List.mem_cons_self paren List.mem_cons_self
  | case4 output token path paren commas rest =>
    exact h.tokens (.call token path paren commas) List.mem_cons_self paren
      (List.mem_cons_of_mem _ List.mem_cons_self)

/-- What a flush up to the innermost parenthesis comes to. -/
theorem of_flushGroup {q : Pending} {output' : List Node} {rest : List Pending}
    (h : Stacked T 1 output pending)
    (hflush : Progress.flushGroup output pending = (output', q :: rest)) :
    Stacked T 1 output' (q :: rest) := by
  have hflushed := h.flushGroup
  rwa [hflush] at hflushed

end Stacked

/-- How far an expression has been read, with as many values on the stack as are waited for. A call
that has just been opened has no arguments. -/
structure Progress.Balanced (T : Nat → Prop) (p : Progress) : Prop where
  stacked : Stacked T (if p.wantsOperand then 0 else 1) p.output p.pending
  opened : p.justOpened = true → p.wantsOperand = true ∧
    ∃ token path paren rest, p.pending = .call token path paren 0 :: rest

theorem arity_of_prefixOf? {s : Token.Shape} {o : Operator} (h : prefixOf? s = some o) :
    o.arity = 1 := by
  rw [Operator.arity, if_pos (isPrefixOp_of_prefixOf? h)]

theorem arity_of_binaryOf? {s : Token.Shape} {o : Operator} (h : binaryOf? s = some o) :
    o.arity = 2 := by
  rw [Operator.arity, if_neg]
  rw [isPrefixOp_of_binaryOf? h]
  exact Bool.false_ne_true

namespace Progress.Balanced

variable {p p' : Progress}

theorem start : Progress.start.Balanced T :=
  ⟨⟨trivial, List.forall_mem_nil _, rfl⟩, nofun⟩

theorem stacked_of_wants (h : p.Balanced T) (hwants : p.wantsOperand = true) :
    Stacked T 0 p.output p.pending := by
  have hs := h.stacked
  rwa [if_pos hwants] at hs

theorem stacked_of_not_wants (h : p.Balanced T) (hwants : ¬p.wantsOperand = true) :
    Stacked T 1 p.output p.pending := by
  have hs := h.stacked
  rwa [if_neg hwants] at hs

theorem operand {n : Node} (h : p.Balanced T) (hn : n.WellFormed T) (hleaf : n.operands = 0)
    (heq : p.operand n = .ok p') : p'.Balanced T := by
  unfold Progress.operand at heq
  split at heq
  · next hwants =>
    cases heq
    have hs := h.stacked_of_wants hwants
    have hpushed : Stacked T 1 (n :: p.output) p.pending :=
      hs.push hn hs.tokens (by omega) (Nat.le_add_left _ _)
    exact ⟨hpushed, nofun⟩
  · cases heq

theorem opening {q : Pending} {justOpened : Bool} (h : p.Balanced T) (hq : ∀ t ∈ q.tokens, T t)
    (hoperands : q.operands = 0)
    (hopened : justOpened = true → ∃ token path paren, q = .call token path paren 0)
    (heq : p.opening q justOpened = .ok p') : p'.Balanced T := by
  unfold Progress.opening at heq
  split at heq
  · next hwants =>
    cases heq
    have hs := h.stacked_of_wants hwants
    refine ⟨⟨hs.nodes, List.forall_mem_cons.mpr ⟨hq, hs.tokens⟩, ?_⟩, fun hj => ⟨rfl, ?_⟩⟩
    · rw [hs.depth, operandsOf, hoperands, Nat.zero_add]
      rfl
    · obtain ⟨token, path, paren, rfl⟩ := hopened hj
      exact ⟨token, path, paren, _, rfl⟩
  · cases heq

/-- An operator that waits keeps the operand before it, if it takes one. -/
theorem pushOperator {o : Operator} {token : Nat} (ht : T token)
    (h : Stacked T (o.arity - 1) output pending) :
    Balanced T ⟨output, .op o token :: pending, true, false⟩ := by
  refine ⟨⟨h.nodes, List.forall_mem_cons.mpr ⟨List.forall_mem_singleton.mpr ht, h.tokens⟩, ?_⟩,
    nofun⟩
  rw [h.depth, operandsOf, Pending.operands, Nat.add_comm]
  rfl

theorem operator {token : Nat} {o : Operator} {m : Token.Mark} (h : p.Balanced T) (ht : T token)
    (ho : Operator.ofMark? m = some o) (heq : p.operator token o = .ok p') : p'.Balanced T := by
  unfold Progress.operator at heq
  by_cases hwants : p.wantsOperand = true
  · -- A prefix operator completes nothing, since its own operand is still to come.
    rw [if_pos hwants] at heq
    cases hform : o.prefixForm? with
    | none =>
      rw [hform] at heq
      cases heq
    | some form =>
      have hprefix : prefixOf? (.mark m) = some form := by
        rw [prefixOf?, ho]
        exact hform
      have hflush : Progress.flushFor form p.output p.pending = (p.output, p.pending) :=
        flushFor_eq_self (fun o' _ _ _ => flushes_of_prefixOf? hprefix o') _
      rw [hform] at heq
      simp only [hflush] at heq
      cases heq
      refine pushOperator ht ?_
      rw [arity_of_prefixOf? hprefix]
      exact h.stacked_of_wants hwants
  · rw [if_neg hwants] at heq
    by_cases hnot : o = .not
    · rw [if_pos hnot] at heq
      cases heq
    · rw [if_neg hnot] at heq
      have hbinary : binaryOf? (.mark m) = some o := by
        rw [binaryOf?, ho]
        exact Option.filter_eq_some_iff.mpr ⟨rfl, decide_eq_true hnot⟩
      cases heq
      refine pushOperator ht ?_
      rw [arity_of_binaryOf? hbinary]
      exact (h.stacked_of_not_wants hwants).flushFor

theorem comma (h : p.Balanced T) (heq : p.comma = .ok p') : p'.Balanced T := by
  unfold Progress.comma at heq
  split at heq
  · cases heq
  · next hwants =>
    split at heq
    · next output token path paren commas rest hflush =>
      cases heq
      have hs := (h.stacked_of_not_wants hwants).of_flushGroup hflush
      have htokens := List.forall_mem_cons.mp hs.tokens
      refine ⟨⟨hs.nodes, List.forall_mem_cons.mpr htokens, ?_⟩, nofun⟩
      rw [hs.depth, operandsOf, operandsOf, Pending.operands, Pending.operands, if_pos rfl]
      congr 1
      omega
    · cases heq

/-- Nothing waits above a call that has just been opened. -/
theorem flushGroup_of_opened (h : p.Balanced T) (hopened : p.justOpened = true) :
    ∃ token path paren rest, p.pending = .call token path paren 0 :: rest ∧
      Progress.flushGroup p.output p.pending = (p.output, p.pending) := by
  obtain ⟨-, token, path, paren, rest, hpending⟩ := h.opened hopened
  refine ⟨token, path, paren, rest, hpending, ?_⟩
  rw [hpending]
  rfl

theorem close (h : p.Balanced T) (heq : p.close = .ok p') : p'.Balanced T := by
  unfold Progress.close at heq
  split at heq
  · cases heq
  · next hready =>
    cases hopened : p.justOpened with
    | true =>
      -- The call is closed at once, with no arguments.
      obtain ⟨token, path, paren, rest, hpending, hflush⟩ := h.flushGroup_of_opened hopened
      have hs := h.stacked_of_wants (h.opened hopened).1
      rw [hpending] at hs
      rw [hflush, hpending, hopened] at heq
      cases heq
      have htokens := List.forall_mem_cons.mp hs.tokens
      refine ⟨hs.push (htokens.1 token List.mem_cons_self) htokens.2 ?_ (Nat.le_add_left _ _), nofun⟩
      simp [operandsOf, Pending.operands, Node.operands]
    | false =>
      have hwants : ¬p.wantsOperand = true := by
        intro hwants
        rw [hwants, hopened] at hready
        exact hready rfl
      have hs := h.stacked_of_not_wants hwants
      split at heq
      · next output paren rest hflush =>
        cases heq
        have hg := hs.of_flushGroup hflush
        refine ⟨⟨hg.nodes, (List.forall_mem_cons.mp hg.tokens).2, ?_⟩, nofun⟩
        rw [hg.depth, operandsOf, Pending.operands, Nat.zero_add]
        rfl
      · next output token path paren commas rest hflush =>
        rw [hopened] at heq
        cases heq
        have hc := hs.of_flushGroup hflush
        have htokens := List.forall_mem_cons.mp hc.tokens
        refine ⟨hc.push (htokens.1 token List.mem_cons_self) htokens.2 ?_ (Nat.le_add_left _ _),
          nofun⟩
        simp [operandsOf, Pending.operands, Node.operands]
        omega
      · cases heq

theorem feed {index : Nat} {shape : Token.Shape} (h : p.Balanced T) (ht : T index)
    (heq : p.feed index shape = .ok p') : p'.Balanced T := by
  unfold Progress.feed at heq
  split at heq
  · next n =>
    unfold literal at heq
    split at heq
    · exact h.operand (n := .int index _ _) ht rfl heq
    · exact h.operand (n := .float index _ _) ht rfl heq
  · exact h.operand (n := .var index _ none) ht rfl heq
  · exact h.operand (n := .bool index true) ht rfl heq
  · exact h.operand (n := .bool index false) ht rfl heq
  · refine h.opening (q := .group index) ?_ rfl (fun hj => absurd hj Bool.false_ne_true) heq
    exact List.forall_mem_singleton.mpr ht
  · exact h.comma heq
  · exact h.close heq
  · split at heq
    · next ho => exact h.operator ht ho heq
    · cases heq
  · cases heq

/-- Where no operand is missing an expression can end. -/
theorem finish (h : p.Balanced T) (hopen : ¬p.isOpen = true) :
    match Progress.finish p.output p.pending with
    | .ok e => e.OptionWellFormed T
    | .error paren => T paren := by
  by_cases hwants : p.wantsOperand = true
  · -- Nothing has been read.
    rw [isOpen, hwants, Bool.true_and, isStarted, Bool.not_eq_true, Bool.not_eq_false',
      Bool.and_eq_true, List.isEmpty_iff, List.isEmpty_iff] at hopen
    rw [hopen.1, hopen.2]
    exact Expr.optionWellFormed_nil
  · have hfinish := (h.stacked_of_not_wants hwants).finish
    cases he : Progress.finish p.output p.pending with
    | ok e =>
      rw [he] at hfinish
      exact hfinish.option
    | error paren =>
      rw [he] at hfinish
      exact hfinish

end Progress.Balanced

end Grammar

end FrontEnd
