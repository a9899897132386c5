import FrontEnd.Grammar.Statement
import FrontEnd.Proofs.Printing.SourceText

/-!
# Progress without places

Where tokens stand says nothing about how an expression goes on. What has been read of it
without the indices of its tokens is what would have been read with other indices: so two
progresses that differ in them only go the same way.
-/

namespace FrontEnd

theorem Expr.withoutTokens_eq_map (e : Expr) : Expr.withoutTokens e = e.map Node.withoutTokens := by
  induction e with
  | nil => exact Expr.withoutTokens_nil
  | cons n rest ih => rw [Expr.withoutTokens_cons, ih, List.map_cons]

theorem Block.withoutTokens_eq_map (b : Block) :
    Block.withoutTokens b = b.map Statement.withoutTokens := by
  induction b with
  | nil => rw [Block.withoutTokens, List.map_nil]
  | cons s rest ih => rw [Block.withoutTokens, ih, List.map_cons]

namespace Grammar

open Token (Shape)

/-- What is pending without its place in the source. -/
def Pending.withoutTokens : Pending → Pending
  | op operator _ => op operator 0
  | group _ => group 0
  | call _ path _ commas => call 0 path 0 commas

namespace Progress

/-- The progress without the places of what has been read. -/
def withoutTokens (p : Progress) : Progress :=
  ⟨Expr.withoutTokens p.output, p.pending.map Pending.withoutTokens, p.wantsOperand, p.justOpened⟩

variable {p q : Progress} {output : List Node} {pending : List Pending}

@[simp]
theorem wantsOperand_withoutTokens (p : Progress) :
    p.withoutTokens.wantsOperand = p.wantsOperand := rfl

theorem isOpen_withoutTokens (p : Progress) : p.withoutTokens.isOpen = p.isOpen := by
  obtain ⟨output, pending, wantsOperand, justOpened⟩ := p
  cases output with
  | nil => cases pending <;> simp [withoutTokens, isOpen, isStarted]
  | cons n output => simp [withoutTokens, isOpen, isStarted]

theorem operand_withoutTokens (p : Progress) (n : Node) :
    p.withoutTokens.operand n.withoutTokens = (p.operand n).map withoutTokens := by
  unfold operand
  rw [wantsOperand_withoutTokens]
  split
  · simp [Except.map, withoutTokens]
  · rfl

theorem opening_withoutTokens (p : Progress) (o : Pending) (justOpened : Bool) :
    p.withoutTokens.opening o.withoutTokens justOpened =
      (p.opening o justOpened).map withoutTokens := by
  unfold opening
  rw [wantsOperand_withoutTokens]
  split <;> rfl

theorem flushGroup_withoutTokens (output : List Node) (pending : List Pending) :
    flushGroup (Expr.withoutTokens output) (pending.map Pending.withoutTokens) =
      (flushGroup output pending).map Expr.withoutTokens (·.map Pending.withoutTokens) := by
  induction pending generalizing output with
  | nil => rfl
  | cons o pending ih =>
    cases o with
    | op operator token =>
      have hih := ih (.op token operator :: output)
      rw [Expr.withoutTokens_cons] at hih
      exact hih
    | group paren => rfl
    | call token path paren commas => rfl

theorem flushFor_withoutTokens (incoming : Operator) (output : List Node)
    (pending : List Pending) :
    flushFor incoming (Expr.withoutTokens output) (pending.map Pending.withoutTokens) =
      (flushFor incoming output pending).map Expr.withoutTokens (·.map Pending.withoutTokens) := by
  induction pending generalizing output with
  | nil => rfl
  | cons o pending ih =>
    cases o with
    | op operator token =>
      have hih := ih (.op token operator :: output)
      rw [Expr.withoutTokens_cons] at hih
      show (if incoming.flushes operator then flushFor incoming _ _ else _) = _
      rw [flushFor]
      split
      · exact hih
      · rfl
    | group paren => rfl
    | call token path paren commas => rfl

theorem operator_withoutTokens (p : Progress) (token : Nat) (o : Operator) :
    p.withoutTokens.operator 0 o = (p.operator token o).map withoutTokens := by
  unfold operator
  rw [wantsOperand_withoutTokens]
  dsimp only
  split
  · rfl
  · next form _ =>
    show Except.ok _ = Except.ok _
    simp only [withoutTokens, flushFor_withoutTokens]
    rfl

theorem comma_withoutTokens (p : Progress) :
    p.withoutTokens.comma = p.comma.map withoutTokens := by
  unfold comma
  rw [wantsOperand_withoutTokens]
  split
  · rfl
  · simp only [withoutTokens, flushGroup_withoutTokens]
    obtain ⟨output, _ | ⟨_ | _ | _, pending⟩⟩ := flushGroup p.output p.pending <;> rfl

theorem close_withoutTokens (p : Progress) :
    p.withoutTokens.close = p.close.map withoutTokens := by
  unfold close
  rw [wantsOperand_withoutTokens]
  show (if p.wantsOperand && !p.justOpened then _ else _) = _
  split
  · rfl
  · simp only [withoutTokens, flushGroup_withoutTokens]
    obtain ⟨output, _ | ⟨_ | _ | _, pending⟩⟩ := flushGroup p.output p.pending
    · rfl
    · rfl
    · rfl
    · simp only [Prod.map_apply, List.map_cons, Pending.withoutTokens, Except.map, withoutTokens,
        Expr.withoutTokens_cons, Node.withoutTokens]
      rfl

theorem literal_withoutTokens (index : Nat) (n : Token.Numeral) :
    (literal index n).withoutTokens = literal 0 n := by
  obtain ⟨number, suffix⟩ := n
  cases number <;> simp [literal, Node.withoutTokens]

theorem feed_withoutTokens (p : Progress) (index : Nat) (shape : Shape) :
    p.withoutTokens.feed 0 shape = (p.feed index shape).map withoutTokens := by
  unfold feed
  split
  · next n => rw [← operand_withoutTokens, literal_withoutTokens]
  · next path => rw [← operand_withoutTokens, Node.withoutTokens]
  · rw [← operand_withoutTokens, Node.withoutTokens]
  · rw [← operand_withoutTokens, Node.withoutTokens]
  · exact opening_withoutTokens p (.group index) false
  · exact comma_withoutTokens p
  · exact close_withoutTokens p
  · split
    · exact operator_withoutTokens p index _
    · rfl
  · rfl

/-- What an expression comes to that ends here. -/
theorem finish_withoutTokens {e : Expr} (h : finish output pending = .ok e) :
    finish (Expr.withoutTokens output) (pending.map Pending.withoutTokens) =
      .ok (Expr.withoutTokens e) := by
  induction pending generalizing output with
  | nil =>
    cases h
    show Except.ok (Expr.withoutTokens output).reverse = _
    rw [Expr.withoutTokens_eq_map, Expr.withoutTokens_eq_map, List.map_reverse]
  | cons o pending ih =>
    cases o with
    | op operator token =>
      have hih := ih h
      rw [Expr.withoutTokens_cons] at hih
      exact hih
    | group paren => cases h
    | call token path paren commas => cases h

theorem exists_finish {output : List Node} {pending : List Pending} {e : Expr}
    (h : finish (Expr.withoutTokens output) (pending.map Pending.withoutTokens) = .ok e) :
    ∃ e', finish output pending = .ok e' := by
  induction pending generalizing output with
  | nil => exact ⟨_, rfl⟩
  | cons o pending ih =>
    cases o with
    | op operator token =>
      have hcons : finish (Expr.withoutTokens (.op token operator :: output))
          (pending.map Pending.withoutTokens) = .ok e := by
        rw [Expr.withoutTokens_cons]
        exact h
      exact ih hcons
    | group paren => cases h
    | call token path paren commas => cases h

/-! What one progress does, another one does that differs in places only. -/

theorem exists_of_map_eq {r r' : Except Complaint Progress}
    (h : r.map withoutTokens = r'.map withoutTokens) (hp : r = .ok p) :
    ∃ q, r' = .ok q ∧ p.withoutTokens = q.withoutTokens := by
  subst hp
  cases r' with
  | ok q => exact ⟨q, rfl, Except.ok.inj h⟩
  | error e => cases h

theorem finish_alike (h : p.withoutTokens = q.withoutTokens) {e : Expr}
    (he : finish p.output p.pending = .ok e) :
    ∃ e', finish q.output q.pending = .ok e' ∧ Expr.withoutTokens e = Expr.withoutTokens e' := by
  have hoff := finish_withoutTokens he
  have houtput : Expr.withoutTokens p.output = Expr.withoutTokens q.output :=
    congrArg Progress.output h
  have hpending : p.pending.map Pending.withoutTokens = q.pending.map Pending.withoutTokens :=
    congrArg Progress.pending h
  rw [houtput, hpending] at hoff
  obtain ⟨e', he'⟩ := exists_finish hoff
  exact ⟨e', he', Except.ok.inj (hoff.symm.trans (finish_withoutTokens he'))⟩

end Progress

end Grammar

end FrontEnd
