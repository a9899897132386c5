import FrontEnd.Proofs.ControlFlow.Hoisting
import FrontEnd.Proofs.Tree.WellFormed

/-!
# Flattening keeps trees well formed

The stack of a hoist holds complete expressions, from which each node takes as many
operands as it needs. So what is written in front of an expression and what is left of it
are well formed, the conditions and tests that are made up on the way too, and each fault
is at a token of the tree.
-/

namespace FrontEnd.ControlFlow

open Emit

variable {α β : Type} {T : Nat → Prop}

/-- A computation that only writes well-formed statements. Its results have a property, or it finds
fault with a token of the tree. -/
def Emit.Produces (T : Nat → Prop) (P : α → Prop) (x : Emit α) : Prop :=
  ∀ temps, Block.WellFormed T (x.run temps).block ∧ match (x.run temps).result with
    | .ok a => P a
    | .error fault => T fault.token

namespace Emit.Produces

variable {P P' : α → Prop} {Q : β → Prop}

theorem pure {a : α} (h : P a) : Produces T P (Pure.pure a : Emit α) := fun _ => ⟨trivial, h⟩

theorem fail {fault : Fault} (h : T fault.token) : Produces T P (Emit.fail fault : Emit α) :=
  fun _ => ⟨trivial, h⟩

theorem emit {s : Statement} (h : s.WellFormed T) : Produces T (fun _ => True) (Emit.emit s) :=
  fun _ => ⟨⟨h, trivial⟩, trivial⟩

theorem fresh : Produces T (fun _ => True) Emit.fresh := fun _ => ⟨trivial, trivial⟩

theorem bind {x : Emit α} {f : α → Emit β} (h : Produces T P x)
    (hf : ∀ a, P a → Produces T Q (f a)) : Produces T Q (x >>= f) := by
  intro temps
  have hx := h temps
  rcases hr : x.run temps with ⟨fault | a, block, mid⟩
  · rw [hr] at hx
    rw [run_bind_error hr]
    exact hx
  · rw [hr] at hx
    rw [run_bind_ok hr]
    obtain ⟨hblock, hresult⟩ := hf a hx.2 mid
    exact ⟨Block.wellFormed_append.mpr ⟨hx.1, hblock⟩, hresult⟩

theorem weaken {x : Emit α} (h : Produces T P x) (hP : ∀ a, P a → P' a) : Produces T P' x := by
  intro temps
  have hx := h temps
  cases hr : (x.run temps).result with
  | error fault =>
    rw [hr] at hx
    exact hx
  | ok a =>
    rw [hr] at hx
    exact ⟨hx.1, hP a hx.2⟩

/-- A block that is captured is as well formed as it would be if it were written. -/
theorem capture {x : Emit Unit} {P : Unit → Prop} (h : Produces T P x) :
    Produces T (Block.WellFormed T) (Emit.capture x) := by
  intro temps
  have hx := h temps
  rcases hr : x.run temps with ⟨fault | a, block, mid⟩
  · rw [hr] at hx
    rw [run_capture_error hr]
    exact ⟨trivial, hx.2⟩
  · rw [hr] at hx
    rw [run_capture_ok hr]
    exact ⟨trivial, hx.1⟩

end Emit.Produces

mutual

/-- A value is missing at a token of the statement, or at the one before it. -/
theorem token_of_statementGap? {token gap : Nat} (ht : T token) :
    (s : Statement) → s.WellFormed T → statementGap? token s = some gap → T gap
  | .cond (.mk inner _ onTrue onFalse _ _), ⟨hinner, _, htrue, hfalse⟩, h => by
    rw [statementGap?] at h
    split at h
    · cases h
      exact ht
    · split at h
      · next gap' hgap =>
        cases h
        exact token_of_blockGap? hinner onTrue htrue hgap
      · exact token_of_blockGap? hinner onFalse hfalse h
  | .declare .., _, h | .assign .., _, h | .loop .., _, h => by
    rw [statementGap?] at h
    cases h
    exact ht
  | .eval .., _, h | .ret .., _, h | .exit .., _, h | .next .., _, h => by
    rw [statementGap?] at h
    cases h

theorem token_of_blockGap? {token gap : Nat} (ht : T token) :
    (b : List Statement) → Block.WellFormed T b → blockGap? token b = some gap → T gap
  | [], _, h => by
    rw [blockGap?] at h
    cases h
    exact ht
  | s :: rest, ⟨hs, hrest⟩, h => by
    rw [blockGap?] at h
    split at h
    · exact token_of_statementGap? ht s hs h
    · exact token_of_blockGap? ht rest hrest h

end

theorem token_of_conditionalGap? {c : Conditional} {gap : Nat} (hc : c.WellFormed T)
    (h : conditionalGap? c = some gap) : T gap := by
  obtain ⟨token, condition, onTrue, onFalse, _, _⟩ := c
  obtain ⟨ht, -, htrue, hfalse⟩ := hc
  unfold conditionalGap? at h
  split at h
  · cases h
    exact ht
  · split at h
    · next gap' hgap =>
      cases h
      exact token_of_blockGap? ht onTrue htrue hgap
    · exact token_of_blockGap? ht onFalse hfalse h

theorem token_of_wellFormed {c : Conditional} (hc : c.WellFormed T) : T c.token := by
  obtain ⟨token, condition, onTrue, onFalse, _, _⟩ := c
  exact hc.1

theorem wellFormed_var {token : Nat} (ht : T token) (name : String) :
    Expr.WellFormed T [.var token [name] none] :=
  Expr.wellFormed_singleton ht rfl

theorem produces_declare {token : Nat} (ht : T token) (name : String) {value : Expr}
    (h : value.OptionWellFormed T) :
    (emit (.declare token name none value none)).Produces T fun _ => True :=
  Produces.emit (s := .declare token name none value none) ⟨ht, h⟩

theorem produces_reserve {c : Conditional} (hc : c.WellFormed T) :
    (reserve c).Produces T fun _ => True := by
  refine Produces.fresh.bind fun temp _ =>
    (produces_declare (token_of_wellFormed hc) temp Expr.optionWellFormed_nil).bind fun _ _ => ?_
  split
  · next gap hgap => exact Produces.fail (token_of_conditionalGap? hc hgap)
  · exact Produces.pure trivial

theorem produces_park {token : Nat} (ht : T token) {operand : Expr} (h : operand.WellFormed T) :
    (park token operand).Produces T (Expr.WellFormed T) := by
  rcases park_cases token operand with ⟨n, -, -, hp⟩ | hp
  · rw [hp]
    exact Produces.pure h
  · rw [hp]
    exact Produces.fresh.bind fun temp _ => (produces_declare ht temp h.option).bind fun _ _ =>
      Produces.pure (wellFormed_var ht temp)

/-- As many operands are left as were spilled. -/
theorem produces_spill {token : Nat} (ht : T token) {operands : List Expr}
    (h : ∀ e ∈ operands, Expr.WellFormed T e) :
    (spill token operands).Produces T fun spilled =>
      (∀ e ∈ spilled, Expr.WellFormed T e) ∧ spilled.length = operands.length := by
  induction operands with
  | nil => exact Produces.pure ⟨List.forall_mem_nil _, rfl⟩
  | cons operand below ih =>
    rw [List.forall_mem_cons] at h
    exact (ih h.2).bind fun below' hb => (produces_park ht h.1).bind fun operand' ho =>
      Produces.pure ⟨List.forall_mem_cons.mpr ⟨ho, hb.1⟩, congrArg Nat.succ hb.2⟩

theorem nodesWellFormed_nodesOnStack {operands : List Expr}
    (h : ∀ e ∈ operands, Expr.WellFormed T e) : Expr.NodesWellFormed T (nodesOnStack operands) := by
  induction operands with
  | nil => exact trivial
  | cons operand below ih =>
    rw [List.forall_mem_cons] at h
    rw [nodesOnStack_cons]
    exact Expr.nodesWellFormed_append.mpr ⟨ih h.2, h.1.2⟩

/-- A node that finds its operands on the stack makes one complete operand of them. -/
theorem wellFormed_pushNode {operands : List Expr} (h : ∀ e ∈ operands, Expr.WellFormed T e)
    {n : Node} (hn : n.WellFormed T) (hlength : n.operands ≤ operands.length) :
    (∀ e ∈ pushNode operands n, Expr.WellFormed T e) ∧
      (pushNode operands n).length = operands.length - n.operands + 1 := by
  have htake : ∀ e ∈ operands.take n.operands, Expr.WellFormed T e :=
    fun e he => h e (List.mem_of_mem_take he)
  have hcomplete : Expr.IsComplete (nodesOnStack (operands.take n.operands) ++ [n]) := by
    refine Expr.isComplete_flatten_append (fun e he => (htake e (List.mem_reverse.mp he)).1) ?_
    rw [List.length_reverse, List.length_take, Nat.min_eq_left hlength]
  have hnodes : Expr.NodesWellFormed T (nodesOnStack (operands.take n.operands) ++ [n]) :=
    Expr.nodesWellFormed_append.mpr ⟨nodesWellFormed_nodesOnStack htake, hn, trivial⟩
  refine ⟨List.forall_mem_cons.mpr ⟨⟨hcomplete, hnodes⟩, fun e he => ?_⟩, ?_⟩
  · exact h e (List.mem_of_mem_drop he)
  · rw [pushNode, List.length_cons, List.length_drop]

theorem produces_hoistFrom {depth : Nat} {nodes : Expr} (hn : Expr.NodesWellFormed T nodes)
    (hc : ∀ c, .cond c ∈ nodes → ∀ tail, (flattenConditional depth tail c).Produces T fun _ => True)
    {operands : List Expr} (h : ∀ e ∈ operands, Expr.WellFormed T e)
    (hdepth : Expr.depthAfter operands.length nodes = some 1) :
    (hoistFrom depth operands nodes).Produces T (Expr.WellFormed T) := by
  induction nodes generalizing operands with
  | nil =>
    obtain ⟨e, rfl⟩ := List.length_eq_one_iff.mp (Option.some.inj hdepth)
    rw [hoistFrom]
    have he := List.forall_mem_singleton.mp h
    refine Produces.pure ⟨?_, nodesWellFormed_nodesOnStack h⟩
    rw [nodesOnStack_cons]
    exact he.1
  | cons n rest ih =>
    obtain ⟨hnode, hrest⟩ := hn
    have hlength : n.operands ≤ operands.length := by
      rw [Expr.depthAfter] at hdepth
      split at hdepth
      · cases hdepth
      · omega
    rw [Expr.depthAfter_cons hlength] at hdepth
    have ih : ∀ operands : List Expr, (∀ e ∈ operands, Expr.WellFormed T e) →
        Expr.depthAfter operands.length rest = some 1 →
        (hoistFrom depth operands rest).Produces T (Expr.WellFormed T) :=
      fun _ => ih hrest fun c hm => hc c (List.mem_cons_of_mem _ hm)
    cases hcond : n.isConditional with
    | false =>
      rw [hoistFrom_cons hcond]
      obtain ⟨hpushed, hlength'⟩ := wellFormed_pushNode h hnode hlength
      exact ih _ hpushed (hlength' ▸ hdepth)
    | true =>
      obtain ⟨c, rfl⟩ := exists_cond_of_isConditional hcond
      have ht := token_of_wellFormed (c := c) hnode
      rw [hoistFrom]
      refine (produces_spill ht h).bind fun spilled hs => (produces_reserve hnode).bind fun temp _ =>
        (hc c List.mem_cons_self _).bind fun _ _ =>
          ih _ (List.forall_mem_cons.mpr ⟨wellFormed_var ht temp, hs.1⟩) ?_
      rw [List.length_cons, hs.2]
      exact hdepth

/-- What is left of an expression is well formed, and nothing is left of nothing. -/
theorem produces_hoistFrom_nil {depth : Nat} {value : Expr} (h : value.OptionWellFormed T)
    (hc : ∀ c, .cond c ∈ value → ∀ tail, (flattenConditional depth tail c).Produces T fun _ => True) :
    (hoistFrom depth [] value).Produces T (Expr.OptionWellFormed T) := by
  by_cases hne : value = []
  · subst hne
    rw [hoistFrom]
    exact Produces.pure Expr.optionWellFormed_nil
  · exact (produces_hoistFrom h.2 hc (List.forall_mem_nil _) (h.1 hne)).weaken fun e he => he.option

theorem wellFormed_tailStatement {token : Nat} (ht : T token) (tail : Tail) {value : Expr}
    (h : value.WellFormed T) : (tail.statement token value).WellFormed T := by
  cases tail with
  | drop => exact ⟨ht, h⟩
  | store => exact ⟨ht, ht, h⟩
  | give => exact ⟨ht, h.option⟩

theorem produces_eval {depth token : Nat} (ht : T token) {value : Expr} (h : value.WellFormed T)
    (hc : ∀ c, .cond c ∈ value → ∀ tail, (flattenConditional depth tail c).Produces T fun _ => True)
    (tail : Tail) : (flattenStatement depth tail (.eval token value)).Produces T fun _ => True := by
  by_cases hdrop : ∃ c, tail = .drop ∧ value = [.cond c]
  · obtain ⟨c, rfl, rfl⟩ := hdrop
    rw [flattenStatement]
    exact hc c List.mem_cons_self _
  · rw [flattenStatement_eval fun c ht hv => hdrop ⟨c, ht, hv⟩]
    exact (produces_hoistFrom h.2 hc (List.forall_mem_nil _) h.1).bind fun e he =>
      Produces.emit (wellFormed_tailStatement ht tail he)

/-- The negated condition of the statement that leaves a loop. -/
theorem wellFormed_exitUnless {token : Nat} (ht : T token) {e : Expr} (h : e.WellFormed T) :
    (exitUnless token e).WellFormed T := by
  have hcondition : Expr.IsComplete (e ++ [.op token .not]) := by
    rw [Expr.IsComplete, Expr.depthAfter_append, h.1]
    rfl
  exact ⟨ht, ⟨hcondition, Expr.nodesWellFormed_append.mpr ⟨h.2, ht, trivial⟩⟩,
    ⟨ht, trivial⟩, trivial⟩

mutual

theorem produces_conditionals (depth : Nat) :
    ∀ (nodes : List Node), Expr.NodesWellFormed T nodes → ∀ c : Conditional, .cond c ∈ nodes →
      ∀ tail, (flattenConditional depth tail c).Produces T fun _ => True
  | .cond c :: rest, ⟨hn, hrest⟩, c', hc, tail => by
    rcases List.mem_cons.mp hc with heq | hr
    · cases heq
      exact produces_flattenConditional depth c hn tail
    · exact produces_conditionals depth rest hrest c' hr tail
  | .int .. :: rest, ⟨_, hrest⟩, c', hc, tail | .float .. :: rest, ⟨_, hrest⟩, c', hc, tail
  | .bool .. :: rest, ⟨_, hrest⟩, c', hc, tail | .var .. :: rest, ⟨_, hrest⟩, c', hc, tail
  | .op .. :: rest, ⟨_, hrest⟩, c', hc, tail | .call .. :: rest, ⟨_, hrest⟩, c', hc, tail =>
    produces_conditionals depth rest hrest c' (by simpa using hc) tail

theorem produces_flattenConditional (depth : Nat) :
    ∀ (c : Conditional), c.WellFormed T → ∀ tail,
      (flattenConditional depth tail c).Produces T fun _ => True
  | .mk _ condition onTrue onFalse _ _, ⟨ht, ⟨hcomplete, hcondition⟩, htrue, hfalse⟩, tail => by
    rw [flattenConditional]
    exact (produces_hoistFrom hcondition (produces_conditionals depth condition hcondition)
        (List.forall_mem_nil _) hcomplete).bind fun e he =>
      (produces_flattenBlock depth onTrue htrue tail).capture.bind fun onTrue ht' =>
        (produces_flattenBlock depth onFalse hfalse tail).capture.bind fun onFalse hf =>
          Produces.emit ⟨ht, he, ht', hf⟩

theorem produces_flattenStatement (depth : Nat) :
    ∀ (s : Statement), s.WellFormed T → ∀ tail,
      (flattenStatement depth tail s).Produces T fun _ => True
  | .declare _ _ _ value _, ⟨ht, hv⟩, tail => by
    rw [flattenStatement]
    exact (produces_hoistFrom_nil hv (produces_conditionals depth value hv.2)).bind fun e he =>
      Produces.emit ⟨ht, he⟩
  | .assign _ _ value, ⟨ht, htarget, hcomplete, hv⟩, tail => by
    rw [flattenStatement]
    exact (produces_hoistFrom hv (produces_conditionals depth value hv) (List.forall_mem_nil _)
      hcomplete).bind fun e he => Produces.emit ⟨ht, htarget, he⟩
  | .ret _ value, ⟨ht, hv⟩, tail => by
    rw [flattenStatement]
    exact (produces_hoistFrom_nil hv (produces_conditionals depth value hv.2)).bind fun e he =>
      Produces.emit ⟨ht, he⟩
  | .eval token value, ⟨ht, hv⟩, tail =>
    produces_eval ht hv (produces_conditionals depth value hv.2) tail
  | .cond c, hc, tail => by
    rw [flattenStatement]
    exact produces_flattenConditional depth c hc tail
  | .loop token condition body, ⟨ht, ⟨hcomplete, hcondition⟩, hbody⟩, tail => by
    rw [flattenStatement]
    refine (produces_flattenBlock (depth + 1) body hbody .drop).capture.bind fun body' hb => ?_
    split
    · refine (((produces_hoistFrom hcondition (produces_conditionals _ condition hcondition)
        (List.forall_mem_nil _) hcomplete).bind fun e he =>
          Produces.emit (wellFormed_exitUnless ht he)).capture).bind fun test htest => ?_
      exact Produces.emit ⟨ht, Expr.wellFormed_singleton (n := .bool token true) ht rfl,
        Block.wellFormed_append.mpr ⟨htest, hb⟩⟩
    · exact Produces.emit ⟨ht, ⟨hcomplete, hcondition⟩, hb⟩
  | .exit _ _, ht, tail | .next _, ht, tail => by
    rw [flattenStatement]
    split
    · exact Produces.fail ht
    · exact Produces.emit ht

theorem produces_flattenBlock (depth : Nat) :
    ∀ (b : List Statement), Block.WellFormed T b → ∀ tail,
      (flattenBlock depth tail b).Produces T fun _ => True
  | [], _, tail => by
    rw [flattenBlock]
    exact Produces.pure trivial
  | s :: rest, ⟨hs, hrest⟩, tail => by
    rw [flattenBlock]
    exact (produces_flattenStatement depth s hs _).bind fun _ _ =>
      produces_flattenBlock depth rest hrest tail

end

mutual

theorem wellFormed_markStatement : ∀ s : Statement, s.WellFormed T → (markStatement s).1.WellFormed T
  | .cond c, h => by
    rw [markStatement]
    exact wellFormed_markConditional c h
  | .loop _ condition body, ⟨ht, hc, hb⟩ => by
    rw [markStatement]
    exact ⟨ht, hc, wellFormed_markBlock body hb⟩
  | .declare .., h | .assign .., h | .eval .., h | .ret .., h | .exit .., h | .next .., h => h

theorem wellFormed_markConditional :
    ∀ c : Conditional, c.WellFormed T → (markConditional c).1.WellFormed T
  | .mk _ condition onTrue onFalse _ _, ⟨ht, hc, htrue, hfalse⟩ => by
    rw [markConditional]
    exact ⟨ht, hc, wellFormed_markBlock onTrue htrue, wellFormed_markBlock onFalse hfalse⟩

theorem wellFormed_markBlock :
    ∀ b : List Statement, Block.WellFormed T b → Block.WellFormed T (markBlock b).1
  | [], h => by
    rw [markBlock]
    exact h
  | s :: rest, ⟨hs, hrest⟩ => by
    rw [markBlock]
    exact ⟨wellFormed_markStatement s hs, wellFormed_markBlock rest hrest⟩

end

theorem produces_flattenFunction {f : Function} (h : Item.WellFormed T (.function f)) :
    (flattenFunction f).Produces T fun f' => Item.WellFormed T (.function f') := by
  obtain ⟨ht, hparams, hbody⟩ := h
  refine (produces_flattenBlock 0 f.body hbody _).capture.bind fun body hb => ?_
  have hmarked := wellFormed_markBlock body hb
  rcases hm : markBlock body with ⟨marked, returns⟩
  rw [hm] at hmarked
  dsimp only
  split
  · exact Produces.pure ⟨ht, hparams, hmarked⟩
  · exact Produces.fail ht

theorem produces_flattenItems {items : List Item} (h : ∀ i ∈ items, i.WellFormed T) :
    (flattenItems items).Produces T fun items' => ∀ i ∈ items', i.WellFormed T := by
  induction items with
  | nil => exact Produces.pure (List.forall_mem_nil _)
  | cons i rest ih =>
    rw [List.forall_mem_cons] at h
    cases i with
    | function f =>
      exact (produces_flattenFunction h.1).bind fun f' hf => (ih h.2).bind fun rest' hr =>
        Produces.pure (List.forall_mem_cons.mpr ⟨hf, hr⟩)
    | global | imports | submodule =>
      exact (ih h.2).bind fun rest' hr => Produces.pure (List.forall_mem_cons.mpr ⟨h.1, hr⟩)

/-- A module whose control flow has been flattened is well formed; what cannot be flattened is at
fault with a token of the module. -/
theorem wellFormed_normalize {items : List Item} (h : ∀ i ∈ items, i.WellFormed T) :
    match normalize items with
    | .ok items' => ∀ i ∈ items', i.WellFormed T
    | .error fault => T fault.token := by
  have hproduces := (produces_flattenItems h 0).2
  unfold normalize
  cases hr : ((flattenItems items).run 0).result with
  | ok items' =>
    rw [hr] at hproduces
    exact hproduces
  | error fault =>
    rw [hr] at hproduces
    exact hproduces

end FrontEnd.ControlFlow
