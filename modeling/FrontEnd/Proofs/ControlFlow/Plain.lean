import FrontEnd.Proofs.ControlFlow.Numbering
import FrontEnd.Proofs.Tree.Parts
import Mathlib.Data.List.Forall2

/-!
# Nothing but plain statements is written

No expression of a statement that is written holds a conditional, at any depth. What else
holds of all written expressions follows from what hoisting does to the expressions of the
source, one at a time. Marks do not change which expressions there are.
-/

namespace FrontEnd

/-- No node of the expression is a conditional. -/
def Expr.IsFlat (e : Expr) : Prop := Expr.containsConditional e = false

/-- No expression of the block holds a conditional. -/
def Block.IsPlain (b : Block) : Prop := ∀ e ∈ Block.exprs b, Expr.IsFlat e

/-- An expression without conditionals has no expressions inside. -/
theorem Expr.IsFlat.inner_eq_nil {e : Expr} (h : e.IsFlat) : Expr.inner e = [] := by
  induction e with
  | nil => rfl
  | cons n rest ih =>
    rw [IsFlat, containsConditional, List.any_cons, Bool.or_eq_false_iff] at h
    rw [Expr.inner, ih h.2, List.append_nil]
    cases n with
    | cond c => cases h.1
    | _ => rw [Node.exprs]; simp

/-- A value that may be missing is flat if all expressions that there are because of it are. -/
theorem Expr.IsFlat.of_value {value : Expr}
    (h : ∀ e ∈ if value.isEmpty then [] else value :: Expr.inner value, IsFlat e) :
    value.IsFlat := by
  split at h
  · next hempty =>
    rw [List.isEmpty_iff.mp hempty]
    rfl
  · exact h value List.mem_cons_self

/-- The expressions of two blocks in a row are those of both. -/
theorem Block.exprs_append (b b' : Block) :
    Block.exprs (b ++ b') = Block.exprs b ++ Block.exprs b' := by
  induction b with
  | nil => rfl
  | cons s rest ih => rw [List.cons_append, Block.exprs, Block.exprs, ih, List.append_assoc]

namespace ControlFlow

open Emit

/-- A computation that only writes plain statements, and whose results have a property. -/
def Emit.Writes {α : Type} (P : α → Prop) (x : Emit α) : Prop :=
  ∀ temps, (x.run temps).block.IsPlain ∧ ∀ a, (x.run temps).result = .ok a → P a

/-- A computation that only writes expressions with a property, at any depth, and whose results have
one. -/
def Emit.WritesExprs {α : Type} (Q : Expr → Prop) (P : α → Prop) (x : Emit α) : Prop :=
  ∀ temps, (∀ e ∈ Block.exprs (x.run temps).block, Q e) ∧
    ∀ a, (x.run temps).result = .ok a → P a

namespace Emit.WritesExprs

variable {α β : Type} {Q : Expr → Prop} {P : α → Prop} {R : β → Prop}

theorem pure {a : α} (h : P a) : WritesExprs Q P (Pure.pure a : Emit α) := fun _ =>
  ⟨nofun, fun _ ha => by cases ha; exact h⟩

theorem fail (fault : Fault) : WritesExprs Q P (Emit.fail fault : Emit α) := fun _ =>
  ⟨nofun, nofun⟩

theorem emit {s : Statement} (h : ∀ e ∈ s.exprs, Q e) :
    WritesExprs Q (fun _ => True) (Emit.emit s) := by
  refine fun temps => ⟨?_, fun _ _ => trivial⟩
  rw [run_emit, Block.exprs, Block.exprs, List.append_nil]
  exact h

theorem fresh : WritesExprs Q (fun _ => True) Emit.fresh := fun _ => ⟨nofun, fun _ _ => trivial⟩

theorem bind {x : Emit α} {f : α → Emit β} (h : WritesExprs Q P x)
    (hf : ∀ a, P a → WritesExprs Q R (f a)) : WritesExprs Q R (x >>= f) := by
  intro temps
  have hx := h temps
  rcases hr : x.run temps with ⟨fault | a, block, mid⟩
  · rw [hr] at hx
    rw [run_bind_error hr]
    exact ⟨hx.1, nofun⟩
  · rw [hr] at hx
    rw [run_bind_ok hr, Block.exprs_append, List.forall_mem_append]
    have ha := hf a (hx.2 a rfl) mid
    exact ⟨⟨hx.1, ha.1⟩, ha.2⟩

/-- The expressions of a block that is captured are those that would be written. -/
theorem capture {x : Emit Unit} {P : Unit → Prop} (h : WritesExprs Q P x) :
    WritesExprs Q (fun b => ∀ e ∈ Block.exprs b, Q e) (Emit.capture x) := by
  intro temps
  have hx := h temps
  rcases hr : x.run temps with ⟨fault | a, block, mid⟩
  · rw [run_capture_error hr]
    exact ⟨nofun, nofun⟩
  · rw [hr] at hx
    rw [run_capture_ok hr]
    refine ⟨nofun, fun b hb => ?_⟩
    cases hb
    exact hx.1

end Emit.WritesExprs

/-- Nothing is taken out of an expression without conditionals. -/
theorem hoistFrom_of_isFlat {e : Expr} (h : e.IsFlat) (depth : Nat) (operands : List Expr) :
    hoistFrom depth operands e = return nodesOnStack operands ++ e := by
  induction e generalizing operands with
  | nil => rw [hoistFrom, List.append_nil]
  | cons n rest ih =>
    rw [Expr.IsFlat, Expr.containsConditional, List.any_cons, Bool.or_eq_false_iff] at h
    rw [hoistFrom_cons h.1, ih h.2, nodesOnStack_pushNode, List.append_assoc, List.singleton_append]

section Hoisting

variable {In Out : Expr → Prop}

theorem writesExprs_reserve (c : Conditional) : (reserve c).WritesExprs Out fun _ => True := by
  refine WritesExprs.fresh.bind fun temp _ => (WritesExprs.emit ?_).bind fun _ _ => ?_
  · rw [Statement.exprs]
    exact List.forall_mem_nil _
  · split
    · exact WritesExprs.fail _
    · exact WritesExprs.pure trivial

/-- A flat expression is the only one of its statement. -/
theorem forall_flat_expr {e : Expr} (hflat : e.IsFlat) (h : Out e) :
    ∀ e' ∈ e :: Expr.inner e, Out e' := by
  rw [hflat.inner_eq_nil]
  exact List.forall_mem_singleton.mpr h

/-- Of a value that may be missing, only one that is there is an expression of its statement. -/
theorem forall_optional_expr {value : Expr} (hflat : value.IsFlat) (h : value ≠ [] → Out value) :
    ∀ e ∈ if value.isEmpty then [] else value :: Expr.inner value, Out e := by
  split
  · exact List.forall_mem_nil _
  · next hne => exact forall_flat_expr hflat (h fun hnil => hne (List.isEmpty_iff.mpr hnil))

/-- An operand that is parked is left where it is, or a temporary stands for it. -/
def IsParked (token : Nat) (operand parked : Expr) : Prop :=
  parked = operand ∨ ∃ temp, parked = [.var token [temp] none]

theorem writesExprs_park (token : Nat) {operand : Expr} (hflat : operand.IsFlat)
    (h : Out operand) : (park token operand).WritesExprs Out (IsParked token operand) := by
  rcases park_cases token operand with ⟨n, -, -, hp⟩ | hp
  · rw [hp]
    exact WritesExprs.pure (.inl rfl)
  · rw [hp]
    refine WritesExprs.fresh.bind fun temp _ => (WritesExprs.emit ?_).bind fun _ _ =>
      WritesExprs.pure (.inr ⟨temp, rfl⟩)
    exact forall_optional_expr hflat fun _ => h

theorem writesExprs_spill (token : Nat) {operands : List Expr}
    (h : ∀ e ∈ operands, Expr.IsFlat e ∧ Out e) :
    (spill token operands).WritesExprs Out (List.Forall₂ (IsParked token) operands) := by
  induction operands with
  | nil => exact WritesExprs.pure .nil
  | cons operand below ih =>
    rw [List.forall_mem_cons] at h
    exact (ih h.2).bind fun below' hb => (writesExprs_park token h.1.1 h.1.2).bind fun operand' ho =>
      WritesExprs.pure (.cons ho hb)

/-- What hoisting makes of expressions of one kind: flat ones of another, to which the conditions of
loops that are always true and the negated ones that leave such loops belong. -/
structure Hoists (In Out : Expr → Prop) : Prop where
  isFlat : ∀ {e}, Out e → e.IsFlat
  always : ∀ token, Out [.bool token true]
  negated : ∀ {e} token, Out e → Out (e ++ [.op token .not])
  hoist : ∀ {value}, In value → ∀ depth,
    (∀ c, .cond c ∈ value → ∀ tail,
      (flattenConditional depth tail c).WritesExprs Out fun _ => True) →
    (hoistFrom depth [] value).WritesExprs Out Out

end Hoisting

namespace Hoists

variable {In Out : Expr → Prop} {depth : Nat}

/-- A flat expression is left as it is. -/
theorem out_of_isFlat (hs : Hoists In Out) {e : Expr} (hflat : e.IsFlat) (h : In e) : Out e := by
  have hnone : ∀ c, .cond c ∉ e := by
    intro c hc
    exact absurd rfl (List.any_eq_false.mp hflat _ hc)
  have hrun := (hs.hoist h 0 fun c hc => absurd hc (hnone c)) 0
  rw [hoistFrom_of_isFlat hflat] at hrun
  exact hrun.2 e rfl

/-- A statement is written with its hoisted expression. -/
theorem emit_hoist (hs : Hoists In Out) {value : Expr} (h : In value)
    (hc : ∀ c, .cond c ∈ value → ∀ tail,
      (flattenConditional depth tail c).WritesExprs Out fun _ => True)
    {make : Expr → Statement} (hmake : ∀ e, e.IsFlat → Out e → ∀ e' ∈ (make e).exprs, Out e') :
    (do emit (make (← hoistFrom depth [] value)) : Emit Unit).WritesExprs Out fun _ => True :=
  (hs.hoist h depth hc).bind fun e he => WritesExprs.emit (hmake e (hs.isFlat he) he)

/-- A statement may have no expression; otherwise it is written with its hoisted expression. -/
theorem emit_hoist_optional (hs : Hoists In Out) {value : Expr}
    (h : ∀ e ∈ if value.isEmpty then [] else value :: Expr.inner value, In e)
    (hc : ∀ c, .cond c ∈ value → ∀ tail,
      (flattenConditional depth tail c).WritesExprs Out fun _ => True)
    {make : Expr → Statement}
    (hmake : ∀ e, (make e).exprs = if e.isEmpty then [] else e :: Expr.inner e) :
    (do emit (make (← hoistFrom depth [] value)) : Emit Unit).WritesExprs Out fun _ => True := by
  cases value with
  | nil =>
    rw [hoistFrom, pure_bind]
    refine WritesExprs.emit ?_
    rw [hmake]
    exact List.forall_mem_nil _
  | cons n rest =>
    refine hs.emit_hoist (h _ List.mem_cons_self) hc fun e hflat he => ?_
    rw [hmake]
    exact forall_optional_expr hflat fun _ => he

theorem eval (hs : Hoists In Out) {value : Expr} (h : In value)
    (hc : ∀ c, .cond c ∈ value → ∀ tail,
      (flattenConditional depth tail c).WritesExprs Out fun _ => True) (token : Nat) (tail : Tail) :
    (flattenStatement depth tail (.eval token value)).WritesExprs Out fun _ => True := by
  by_cases hdrop : ∃ c, tail = .drop ∧ value = [.cond c]
  · obtain ⟨c, rfl, rfl⟩ := hdrop
    rw [flattenStatement]
    exact hc c List.mem_cons_self _
  · rw [flattenStatement_eval fun c ht hv => hdrop ⟨c, ht, hv⟩]
    refine hs.emit_hoist h hc fun e hflat he => ?_
    cases tail with
    | drop | store => exact forall_flat_expr hflat he
    | give => exact forall_optional_expr hflat fun _ => he

/-- The statement that leaves a loop holds the negated condition. -/
theorem forall_exprs_exitUnless (hs : Hoists In Out) (token : Nat) {e : Expr} (h : Out e) :
    ∀ e' ∈ (exitUnless token e).exprs, Out e' := by
  have hinner : Expr.inner (e ++ [.op token .not]) = [] := (hs.isFlat (hs.negated token h)).inner_eq_nil
  simp only [exitUnless, Conditional.ofBlocks, Statement.exprs, Conditional.exprs,
    Block.exprs, hinner, List.append_nil]
  exact List.forall_mem_singleton.mpr (hs.negated token h)

mutual

theorem writes_conditionals (hs : Hoists In Out) (depth : Nat) :
    ∀ nodes : List Node, (∀ e ∈ Expr.inner nodes, In e) → ∀ c : Conditional, .cond c ∈ nodes →
      ∀ tail, (flattenConditional depth tail c).WritesExprs Out fun _ => True
  | .cond c :: rest, h, c', hc, tail => by
    rw [Expr.inner, List.forall_mem_append] at h
    rcases List.mem_cons.mp hc with heq | hr
    · cases heq
      exact writes_flattenConditional hs depth c h.1 tail
    · exact writes_conditionals hs depth rest h.2 c' hr tail
  | .int .. :: rest, h, c', hc, tail | .float .. :: rest, h, c', hc, tail
  | .bool .. :: rest, h, c', hc, tail | .var .. :: rest, h, c', hc, tail
  | .op .. :: rest, h, c', hc, tail | .call .. :: rest, h, c', hc, tail => by
    rw [Expr.inner, List.forall_mem_append] at h
    exact writes_conditionals hs depth rest h.2 c' (by simpa using hc) tail

theorem writes_flattenConditional (hs : Hoists In Out) (depth : Nat) :
    ∀ c : Conditional, (∀ e ∈ c.exprs, In e) → ∀ tail,
      (flattenConditional depth tail c).WritesExprs Out fun _ => True
  | .mk _ condition onTrue onFalse _ _, h, tail => by
    rw [Conditional.exprs, List.forall_mem_append, List.forall_mem_append, List.forall_mem_cons] at h
    rw [flattenConditional]
    refine (hs.hoist h.1.1.1 depth (writes_conditionals hs depth condition h.1.1.2)).bind fun e he =>
      (writes_flattenBlock hs depth onTrue h.1.2 tail).capture.bind fun onTrue ht =>
        (writes_flattenBlock hs depth onFalse h.2 tail).capture.bind fun onFalse hf =>
          WritesExprs.emit ?_
    rw [Statement.exprs, Conditional.exprs, List.forall_mem_append, List.forall_mem_append]
    exact ⟨⟨forall_flat_expr (hs.isFlat he) he, ht⟩, hf⟩

theorem writes_flattenStatement (hs : Hoists In Out) (depth : Nat) :
    ∀ s : Statement, (∀ e ∈ s.exprs, In e) → ∀ tail,
      (flattenStatement depth tail s).WritesExprs Out fun _ => True
  | .declare _ _ _ value _, h, tail | .ret _ value, h, tail => by
    rw [flattenStatement]
    rw [Statement.exprs] at h
    refine hs.emit_hoist_optional h (writes_conditionals hs depth value fun e he => h e ?_) fun _ => rfl
    cases value with
    | nil => exact absurd he (List.not_mem_nil)
    | cons => exact List.mem_cons_of_mem _ he
  | .assign _ _ value, h, tail => by
    rw [Statement.exprs, List.forall_mem_cons] at h
    rw [flattenStatement]
    exact hs.emit_hoist h.1 (writes_conditionals hs depth value h.2) fun e hflat he =>
      forall_flat_expr hflat he
  | .eval token value, h, tail => by
    rw [Statement.exprs, List.forall_mem_cons] at h
    exact hs.eval h.1 (writes_conditionals hs depth value h.2) token tail
  | .cond c, h, tail => by
    rw [flattenStatement]
    exact writes_flattenConditional hs depth c h tail
  | .loop token condition body, h, tail => by
    rw [Statement.exprs, List.forall_mem_append, List.forall_mem_cons] at h
    obtain ⟨⟨hcondition, hinner⟩, hbody⟩ := h
    rw [flattenStatement]
    refine (writes_flattenBlock hs (depth + 1) body hbody .drop).capture.bind fun body' hb => ?_
    split
    · refine (hs.emit_hoist hcondition (writes_conditionals hs (depth + 1) condition hinner)
        fun e _ he => hs.forall_exprs_exitUnless token he).capture.bind fun test ht => ?_
      refine WritesExprs.emit ?_
      rw [Statement.exprs, Block.exprs_append, List.forall_mem_append, List.forall_mem_append]
      exact ⟨forall_flat_expr rfl (hs.always token), ht, hb⟩
    · next hplain =>
      have hflat : Expr.IsFlat condition := Bool.eq_false_iff.mpr hplain
      refine WritesExprs.emit ?_
      rw [Statement.exprs, List.forall_mem_append]
      exact ⟨forall_flat_expr hflat (hs.out_of_isFlat hflat hcondition), hb⟩
  | .exit _ _, _, tail | .next _, _, tail => by
    rw [flattenStatement]
    split
    · exact WritesExprs.fail _
    · exact WritesExprs.emit (List.forall_mem_nil _)

/-- A block whose expressions are of the one kind is written with expressions of the other. -/
theorem writes_flattenBlock (hs : Hoists In Out) (depth : Nat) :
    ∀ b : List Statement, (∀ e ∈ Block.exprs b, In e) → ∀ tail,
      (flattenBlock depth tail b).WritesExprs Out fun _ => True
  | [], _, tail => by
    rw [flattenBlock]
    exact WritesExprs.pure trivial
  | s :: rest, h, tail => by
    rw [Block.exprs, List.forall_mem_append] at h
    rw [flattenBlock]
    exact (writes_flattenStatement hs depth s h.1 _).bind fun _ _ =>
      writes_flattenBlock hs depth rest h.2 tail

end

end Hoists

/-! ## Flat expressions -/

/-- Operands without conditionals stay so on the stack. -/
theorem isFlat_nodesOnStack {operands : List Expr} (h : ∀ e ∈ operands, Expr.IsFlat e) :
    Expr.IsFlat (nodesOnStack operands) := by
  rw [Expr.IsFlat, Expr.containsConditional, List.any_eq_false]
  intro n hn
  rw [nodesOnStack, List.mem_flatten] at hn
  obtain ⟨e, he, hn⟩ := hn
  exact List.any_eq_false.mp (h e (List.mem_reverse.mp he)) n hn

theorem isFlat_pushNode {operands : List Expr} (h : ∀ e ∈ operands, Expr.IsFlat e) {n : Node}
    (hn : n.isConditional = false) : ∀ e ∈ pushNode operands n, Expr.IsFlat e := by
  rw [pushNode, List.forall_mem_cons]
  refine ⟨?_, fun e he => h e (List.mem_of_mem_drop he)⟩
  have htake : Expr.IsFlat (nodesOnStack (operands.take n.operands)) :=
    isFlat_nodesOnStack fun e he => h e (List.mem_of_mem_take he)
  rw [Expr.IsFlat, Expr.containsConditional] at htake ⊢
  rw [List.any_append, htake, List.any_cons, hn, List.any_nil]
  rfl

/-- What is parked for flat operands is flat. -/
theorem isFlat_of_isParked {token : Nat} {operands parked : List Expr}
    (hparked : List.Forall₂ (IsParked token) operands parked) (h : ∀ e ∈ operands, Expr.IsFlat e) :
    ∀ e ∈ parked, Expr.IsFlat e := by
  induction hparked with
  | nil => exact List.forall_mem_nil _
  | cons hp _ ih =>
    rw [List.forall_mem_cons] at h ⊢
    refine ⟨?_, ih h.2⟩
    rcases hp with rfl | ⟨temp, rfl⟩
    · exact h.1
    · rfl

theorem writesExprs_hoistFrom {depth : Nat} {nodes : Expr}
    (hc : ∀ c, .cond c ∈ nodes → ∀ tail,
      (flattenConditional depth tail c).WritesExprs Expr.IsFlat fun _ => True)
    {operands : List Expr} (h : ∀ e ∈ operands, Expr.IsFlat e) :
    (hoistFrom depth operands nodes).WritesExprs Expr.IsFlat Expr.IsFlat := by
  induction nodes generalizing operands with
  | nil =>
    rw [hoistFrom]
    exact WritesExprs.pure (isFlat_nodesOnStack h)
  | cons n rest ih =>
    have hr : ∀ operands : List Expr, (∀ e ∈ operands, Expr.IsFlat e) →
        (hoistFrom depth operands rest).WritesExprs Expr.IsFlat Expr.IsFlat :=
      fun _ => ih fun c hm => hc c (List.mem_cons_of_mem _ hm)
    cases hn : n.isConditional with
    | false =>
      rw [hoistFrom_cons hn]
      exact hr _ (isFlat_pushNode h hn)
    | true =>
      obtain ⟨c, rfl⟩ := exists_cond_of_isConditional hn
      rw [hoistFrom]
      exact (writesExprs_spill _ fun e he => ⟨h e he, h e he⟩).bind fun spilled hparked =>
        (writesExprs_reserve c).bind fun temp _ => (hc c List.mem_cons_self _).bind fun _ _ =>
          hr _ (List.forall_mem_cons.mpr ⟨rfl, isFlat_of_isParked hparked h⟩)

theorem hoists_isFlat : Hoists (fun _ => True) Expr.IsFlat where
  isFlat h := h
  always _ := rfl
  negated token h := by
    rw [Expr.IsFlat, Expr.containsConditional] at h ⊢
    rw [List.any_append, h]
    rfl
  hoist _ _ hc := writesExprs_hoistFrom hc (List.forall_mem_nil _)

theorem writes_flattenBlock (depth : Nat) (b : Block) (tail : Tail) :
    (flattenBlock depth tail b).Writes fun _ => True :=
  hoists_isFlat.writes_flattenBlock depth b (fun _ _ => trivial) tail

mutual

theorem exprs_markStatement : ∀ s : Statement, (markStatement s).1.exprs = s.exprs
  | .cond c => by
    rw [markStatement, Statement.exprs, Statement.exprs]
    exact exprs_markConditional c
  | .loop _ condition body => by
    rw [markStatement, Statement.exprs, Statement.exprs, exprs_markBlock body]
  | .declare .. | .assign .. | .eval .. | .ret .. | .exit .. | .next .. => rfl

theorem exprs_markConditional : ∀ c : Conditional, (markConditional c).1.exprs = c.exprs
  | .mk _ condition onTrue onFalse _ _ => by
    rw [markConditional, Conditional.exprs, Conditional.exprs, exprs_markBlock onTrue,
      exprs_markBlock onFalse]

theorem exprs_markBlock : ∀ b : List Statement, Block.exprs (markBlock b).1 = Block.exprs b
  | [] => by rw [markBlock]
  | s :: rest => by
    rw [markBlock, Block.exprs, Block.exprs, exprs_markStatement s, exprs_markBlock rest]

end

end ControlFlow

end FrontEnd
