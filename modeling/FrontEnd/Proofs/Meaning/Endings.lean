import FrontEnd.Proofs.Meaning.Evaluation
import FrontEnd.Proofs.Tree.LoopExits

/-!
# How runs end

A run of a block leaves no more loops than there are around the block, if no exit in the
block does, and goes on with the next turn of a loop around it only if there is one. A
loop takes away what its turns leave, so outside of all loops a run ends in no such way.
-/

namespace FrontEnd.Meaning

variable {α σ β γ : Type}

/-- An ending that leaves at least one and at most `depth` loops, goes on with the next turn of one of
them, or has nothing to do with loops. -/
def Ending.Within (depth : Nat) : Ending α → Prop
  | .exit loops => 1 ≤ loops ∧ loops ≤ depth
  | .next => depth ≠ 0
  | .ret _ | .halted | .exhausted | .fault => True

/-- A run inside `depth` loops that leaves no others. -/
def EndsWithin (depth : Nat) (x : Run α σ β) : Prop :=
  ∀ s e s', x s = .error e s' → e.Within depth

namespace EndsWithin

variable {depth : Nat}

theorem pure (a : β) : EndsWithin depth (Pure.pure a : Run α σ β) := nofun

theorem throw {e : Ending α} (h : e.Within depth) :
    EndsWithin depth (MonadExcept.throw e : Run α σ β) := by
  rintro s _ s' ⟨⟩
  exact h

theorem modify (change : σ → σ) : EndsWithin depth (modify change : Run α σ Unit) := nofun

theorem bind {x : Run α σ β} {f : β → Run α σ γ} (h : EndsWithin depth x)
    (hf : ∀ a, EndsWithin depth (f a)) : EndsWithin depth (x >>= f) := by
  intro s e s' hr
  rw [bind_apply] at hr
  cases hx : x s with
  | ok a t =>
    rw [hx] at hr
    exact hf a t e s' hr
  | error e' t =>
    rw [hx] at hr
    cases hr
    exact h s e s' hx

theorem map {x : Run α σ β} (h : EndsWithin depth x) (f : β → γ) : EndsWithin depth (f <$> x) := by
  rw [map_eq_pure_bind]
  exact h.bind fun _ => pure _

theorem discard {x : Run α σ β} (h : EndsWithin depth x) : EndsWithin depth (discard x) :=
  h.map _

theorem asBool (v : Value α) : EndsWithin depth (asBool v : Run α σ Bool) := by
  cases v with
  | bool b => exact pure b
  | other a => exact throw trivial

theorem probe (x : Run α σ (Value α)) : EndsWithin depth (probe x) := by
  intro s e s' hr
  unfold Meaning.probe at hr
  split at hr
  · cases hr
    trivial
  · cases hr
    trivial
  · cases hr

theorem logical (o : Operator) {left right : Run α σ (Value α)} (h : EndsWithin depth left)
    (h' : EndsWithin depth right) : EndsWithin depth (logical o left right) := by
  refine h.bind fun v => (asBool v).bind fun b => ?_
  split
  · exact pure _
  · exact h'

theorem logicalChecked (o : Operator) {left right : Run α σ (Value α)} (h : EndsWithin depth left)
    (h' : EndsWithin depth right) : EndsWithin depth (logicalChecked o left right) := by
  refine h.bind fun v => (asBool v).bind fun b => ?_
  split
  · exact (probe right).bind fun _ => pure _
  · exact h'.bind fun v' => (asBool v').bind fun _ => pure _

theorem inOrder {xs : List (Run α σ (Value α))} (h : ∀ x ∈ xs, EndsWithin depth x) :
    EndsWithin depth (inOrder xs) := by
  induction xs with
  | nil => exact pure _
  | cons x rest ih =>
    rw [List.forall_mem_cons] at h
    exact h.1.bind fun _ => (ih h.2).bind fun _ => pure _

/-- The end of a turn is one of the loop, whatever loops the turn leaves. -/
theorem endTurn {x : Run α σ Bool} (h : EndsWithin (depth + 1) x) :
    EndsWithin depth (endTurn x) := by
  intro s e s' hr
  unfold Meaning.endTurn at hr
  split at hr
  · next loops t hx =>
    have hloops : 1 ≤ loops ∧ loops ≤ depth + 1 := h s _ t hx
    split at hr
    · cases hr
    · cases hr
      exact ⟨by omega, by omega⟩
  · cases hr
  · next hexit hnext =>
    have he := h s e s' hr
    cases e with
    | exit loops => exact absurd hr (hexit loops s')
    | next => exact absurd hr (hnext s')
    | ret | halted | exhausted | fault => trivial

theorem turn {condition body : Run α σ (Value α)} (h : EndsWithin (depth + 1) condition)
    (h' : EndsWithin (depth + 1) body) : EndsWithin depth (turn condition body) := by
  refine EndsWithin.endTurn (h.bind fun v => (asBool v).bind fun b => ?_)
  split
  · exact h'.discard.bind fun _ => pure _
  · exact pure _

theorem loop (turns : Nat) {condition body : Run α σ (Value α)}
    (h : EndsWithin (depth + 1) condition) (h' : EndsWithin (depth + 1) body) :
    EndsWithin depth (loop turns condition body) := by
  induction turns with
  | zero => exact throw trivial
  | succ turns ih =>
    rw [Meaning.loop]
    refine (h.turn h').bind fun again => ?_
    split
    · exact ih
    · exact pure _

theorem single {xs : Option (List (Run α σ (Value α)))}
    (h : ∀ operands, xs = some operands → ∀ x ∈ operands, EndsWithin depth x) :
    EndsWithin depth (single xs) := by
  unfold Meaning.single
  split
  · next x => exact h _ rfl x (List.mem_singleton_self x)
  · exact throw trivial

theorem optional (e : Expr) {x : Run α σ (Value α)} (h : EndsWithin depth x) :
    EndsWithin depth (optional e x) := by
  unfold Meaning.optional
  split
  · exact pure _
  · exact h.map _

theorem invoke (I : Interpretation α σ) (path : List String) (arguments : List (Value α)) :
    EndsWithin depth (I.invoke path arguments) := by
  intro s e s' hr
  unfold Interpretation.invoke at hr
  split at hr <;> cases hr
  trivial

theorem operator (I : Interpretation α σ) (order : Order) (o : Operator)
    {operands : List (Run α σ (Value α))} (h : ∀ x ∈ operands, EndsWithin depth x) :
    EndsWithin depth (I.operator order o operands) := by
  unfold Interpretation.operator
  split
  · next left right =>
    have hleft := h left List.mem_cons_self
    have hright := h right (.tail left List.mem_cons_self)
    split
    · exact hleft.logical o hright
    · exact hleft.logicalChecked o hright
    · exact (inOrder h).map _
  · exact (inOrder h).map _

end EndsWithin

namespace Interpretation

variable (I : Interpretation α σ) (order : Order) (turns : Nat)

mutual

theorem node_endsWithin : ∀ (n : Node) (loops : List Nat), (∀ x ∈ n.exits .own loops, x.IsBound) →
    ∀ operands : List (Run α σ (Value α)), (∀ x ∈ operands, EndsWithin loops.length x) →
      EndsWithin loops.length (I.node order turns n operands)
  | .op _ o, loops, _, operands, h => by
    rw [node]
    exact EndsWithin.operator I order o h
  | .call _ path _ _, loops, _, operands, h => by
    rw [node]
    exact (EndsWithin.inOrder h).bind fun _ => EndsWithin.invoke I path _
  | .cond c, loops, hbound, operands, _ => by
    rw [Node.exits] at hbound
    rw [node]
    exact conditional_endsWithin c loops hbound
  | .int .., _, _, _, _ | .float .., _, _, _, _ | .bool .., _, _, _, _ => by
    rw [node]
    exact EndsWithin.pure _
  | .var .., _, _, _, _ => by
    rw [node]
    nofun

theorem stack_endsWithin : ∀ (nodes : List Node) (loops : List Nat),
    (∀ x ∈ Expr.exits .own loops nodes, x.IsBound) →
      ∀ operands : List (Run α σ (Value α)), (∀ x ∈ operands, EndsWithin loops.length x) →
        ∀ left, I.stack order turns operands nodes = some left →
          ∀ x ∈ left, EndsWithin loops.length x
  | [], _, _, _, h, _, hleft => by
    rw [stack] at hleft
    cases hleft
    exact h
  | n :: rest, loops, hbound, operands, h, left, hleft => by
    rw [Expr.exits_cons, List.forall_mem_append] at hbound
    rw [stack] at hleft
    split at hleft
    · cases hleft
    · refine stack_endsWithin rest loops hbound.2 _ (List.forall_mem_cons.mpr ⟨?_, ?_⟩) left hleft
      · exact node_endsWithin n loops hbound.1 _ fun x hx =>
          h x (List.mem_of_mem_take (List.mem_reverse.mp hx))
      · exact fun x hx => h x (List.mem_of_mem_drop hx)

theorem conditional_endsWithin : ∀ (c : Conditional) (loops : List Nat),
    (∀ x ∈ c.exits .own loops, x.IsBound) →
      EndsWithin loops.length (I.conditional order turns c)
  | .mk _ condition onTrue onFalse _ _, loops, hbound => by
    rw [Conditional.exits, List.forall_mem_append, List.forall_mem_append] at hbound
    rw [conditional]
    refine (EndsWithin.single (stack_endsWithin condition loops hbound.1.1 []
      (List.forall_mem_nil _))).bind fun v => (EndsWithin.asBool v).bind fun b => ?_
    split
    · exact blockFrom_endsWithin onTrue loops hbound.1.2 _
    · exact blockFrom_endsWithin onFalse loops hbound.2 _

theorem statement_endsWithin : ∀ (s : Statement) (loops : List Nat),
    (∀ x ∈ s.exits .own loops, x.IsBound) → EndsWithin loops.length (I.statement order turns s)
  | .declare _ name type value _, loops, hbound => by
    rw [Statement.exits] at hbound
    rw [statement]
    exact ((EndsWithin.single (stack_endsWithin value loops hbound [] (List.forall_mem_nil _))).optional
      value).bind fun _ => (EndsWithin.modify _).bind fun _ => EndsWithin.pure _
  | .assign _ target value, loops, hbound => by
    rw [Statement.exits] at hbound
    rw [statement]
    exact (EndsWithin.single (stack_endsWithin value loops hbound [] (List.forall_mem_nil _))).bind
      fun _ => (EndsWithin.modify _).bind fun _ => EndsWithin.pure _
  | .eval _ value, loops, hbound => by
    rw [Statement.exits] at hbound
    rw [statement]
    exact EndsWithin.single (stack_endsWithin value loops hbound [] (List.forall_mem_nil _))
  | .ret _ value, loops, hbound => by
    rw [Statement.exits] at hbound
    rw [statement]
    exact ((EndsWithin.single (stack_endsWithin value loops hbound [] (List.forall_mem_nil _))).optional
      value).bind fun _ => EndsWithin.throw trivial
  | .cond c, loops, hbound => by
    rw [Statement.exits] at hbound
    rw [statement]
    exact conditional_endsWithin c loops hbound
  | .loop token condition body, loops, hbound => by
    rw [Statement.exits, List.forall_mem_append, List.forall_mem_append] at hbound
    rw [statement]
    exact (EndsWithin.loop turns (EndsWithin.single
      (stack_endsWithin condition (token :: loops) hbound.1.2 [] (List.forall_mem_nil _)))
      (blockFrom_endsWithin body (token :: loops) hbound.2 _)).bind fun _ => EndsWithin.pure _
  | .exit token amount, loops, hbound => by
    rw [Statement.exits, ExitRule.own, List.forall_mem_singleton] at hbound
    rw [statement]
    exact EndsWithin.throw hbound
  | .next token, loops, hbound => by
    rw [Statement.exits, ExitRule.own, List.forall_mem_singleton] at hbound
    rw [statement]
    exact EndsWithin.throw fun h => hbound (List.length_eq_zero_iff.mp h)

/-- A run of a block leaves no more loops than there are around it, if its exits do not. -/
theorem blockFrom_endsWithin : ∀ (b : List Statement) (loops : List Nat),
    (∀ x ∈ Block.exits .own loops b, x.IsBound) →
      ∀ last, EndsWithin loops.length (I.blockFrom order turns last b)
  | [], _, _, _ => by
    rw [blockFrom]
    exact EndsWithin.pure _
  | s :: rest, loops, hbound, last => by
    rw [Block.exits_cons, List.forall_mem_append] at hbound
    rw [blockFrom]
    exact (statement_endsWithin s loops hbound.1).bind fun v =>
      blockFrom_endsWithin rest loops hbound.2 v

end

end Interpretation

end FrontEnd.Meaning
