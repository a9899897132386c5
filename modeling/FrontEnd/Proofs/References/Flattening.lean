import FrontEnd.Proofs.ControlFlow.Hoisting
import FrontEnd.Proofs.References.Basic

/-!
# Flattening keeps the mentions

The statements written in front of an expression hold what it mentions up to the
conditional that is taken out, and what is left of the expression holds the mentions
after it. So flattening keeps the mentions of a tree in their order, but for those of
temporaries. All that it finds fault with is control flow.
-/

namespace FrontEnd

/-- A variable whose name no source can write. -/
def Mention.isTemporary : Mention → Bool
  | .call _ _ _ => false
  | m => (ControlFlow.temporary? m.path).isSome

/-- The mentions but for those of temporaries. -/
def withoutTemporaries (ms : List Mention) : List Mention := ms.filter fun m => !m.isTemporary

@[simp]
theorem withoutTemporaries_nil : withoutTemporaries [] = [] := rfl

@[simp]
theorem withoutTemporaries_append (ms ms' : List Mention) :
    withoutTemporaries (ms ++ ms') = withoutTemporaries ms ++ withoutTemporaries ms' :=
  List.filter_append ms ms'

theorem withoutTemporaries_singleton {m : Mention} (h : m.isTemporary = true) :
    withoutTemporaries [m] = [] := by
  rw [withoutTemporaries, List.filter_cons_of_neg (by simp [h]), List.filter_nil]

/-- The name of a temporary has no dot. -/
theorem Mention.dottedNames_of_isTemporary {m : Mention} (h : m.isTemporary = true) :
    m.dottedNames = [] := by
  have hsome : (ControlFlow.temporary? m.path).isSome = true := by
    cases m with
    | call => cases h
    | _ => exact h
  unfold ControlFlow.temporary? at hsome
  split at hsome
  · next name hpath => rw [dottedNames, hpath, dottedName_single]
  · cases hsome

theorem flatMap_withoutTemporaries (ms : List Mention) :
    (withoutTemporaries ms).flatMap Mention.dottedNames = ms.flatMap Mention.dottedNames := by
  induction ms with
  | nil => rfl
  | cons m rest ih =>
    rw [withoutTemporaries] at ih ⊢
    cases hm : m.isTemporary with
    | true =>
      rw [List.filter_cons_of_neg (by simp [hm]), ih, List.flatMap_cons,
        Mention.dottedNames_of_isTemporary hm, List.nil_append]
    | false => rw [List.filter_cons_of_pos (by simp [hm]), List.flatMap_cons, List.flatMap_cons, ih]

/-- The mentions in a block but for those of temporaries. -/
def Block.sourceMentions (b : Block) : List Mention := withoutTemporaries (Block.mentions b)

theorem Block.dottedNames_congr (b b' : Block) (h : b.sourceMentions = b'.sourceMentions) :
    Block.dottedNames b = Block.dottedNames b' := by
  rw [Block.dottedNames_eq, Block.dottedNames_eq, ← flatMap_withoutTemporaries,
    ← flatMap_withoutTemporaries (Block.mentions b')]
  exact congrArg (List.flatMap Mention.dottedNames) h

namespace ControlFlow

open Emit

variable {α β : Type}

/-- A computation that succeeds with mentions in what it writes, and with a result, of which `P`
holds, or that finds a fault in the control flow. Mentions of temporaries do not count. -/
def Emit.Spells (P : List Mention → α → Prop) (x : Emit α) : Prop :=
  ∀ temps, match (x.run temps).result with
    | .ok a => P (Block.sourceMentions (x.run temps).block) a
    | .error fault => fault.cause.category = .controlFlow

namespace Emit.Spells

variable {P : List Mention → α → Prop} {Q : List Mention → β → Prop}

theorem pure {a : α} (h : P [] a) : Spells P (Pure.pure a : Emit α) := by
  intro temps
  rw [run_pure, Block.sourceMentions, Block.mentions_nil]
  exact h

theorem fail {fault : Fault} (h : fault.cause.category = .controlFlow) :
    Spells P (Emit.fail fault : Emit α) := fun _ => h

theorem emit {P : List Mention → Unit → Prop} {s : Statement}
    (h : P (withoutTemporaries s.mentions) ()) : Spells P (Emit.emit s) := by
  intro temps
  rw [run_emit, Block.sourceMentions, Block.mentions_cons, Block.mentions_nil, List.append_nil]
  exact h

theorem fresh {P : List Mention → String → Prop} (h : ∀ k, P [] (temporaryName k)) :
    Spells P Emit.fresh := by
  intro temps
  rw [run_fresh, Block.sourceMentions, Block.mentions_nil]
  exact h _

theorem bind {x : Emit α} {f : α → Emit β} (h : Spells P x)
    (hf : ∀ ms a, P ms a → Spells (fun more b => Q (ms ++ more) b) (f a)) :
    Spells Q (x >>= f) := by
  intro temps
  have hx := h temps
  rcases hr : x.run temps with ⟨fault | a, block, mid⟩
  · rw [hr] at hx
    rw [run_bind_error hr]
    exact hx
  · rw [hr] at hx
    have ha := hf _ a hx mid
    rw [run_bind_ok hr, Block.sourceMentions, Block.mentions_append, withoutTemporaries_append]
    exact ha

theorem weaken {P' : List Mention → α → Prop} {x : Emit α} (h : Spells P x)
    (hP : ∀ ms a, P ms a → P' ms a) : Spells P' x := by
  intro temps
  have hx := h temps
  cases hr : (x.run temps).result with
  | error fault =>
    rw [hr] at hx
    exact hx
  | ok a =>
    rw [hr] at hx
    exact hP _ a hx

/-- The mentions in a block that is captured are those that would have been written. -/
theorem capture {ms : List Mention} {x : Emit Unit} (h : Spells (fun ms' _ => ms' = ms) x) :
    Spells (fun ms' b => ms' = [] ∧ Block.sourceMentions b = ms) (Emit.capture x) := by
  intro temps
  have hx := h temps
  rcases hr : x.run temps with ⟨fault | a, block, mid⟩
  · rw [hr] at hx
    rw [run_capture_error hr]
    exact hx
  · rw [hr] at hx
    rw [run_capture_ok hr, Block.sourceMentions, Block.mentions_nil]
    exact ⟨rfl, hx⟩

end Emit.Spells

theorem isTemporary_read (token k : Nat) :
    (Mention.read token [temporaryName k]).isTemporary = true := by
  rw [Mention.isTemporary, Mention.path, temporary?_temporaryName]
  · rfl
  · nofun

theorem isTemporary_write (token k : Nat) :
    (Mention.write token [temporaryName k]).isTemporary = true := by
  rw [Mention.isTemporary, Mention.path, temporary?_temporaryName]
  · rfl
  · nofun

theorem isTemporary_declare (token k : Nat) (hasValue : Bool) :
    (Mention.declare token (temporaryName k) hasValue).isTemporary = true := by
  rw [Mention.isTemporary, Mention.path, temporary?_temporaryName]
  · rfl
  · nofun

/-- A tail that mentions nothing but a temporary. -/
inductive Tail.IsSilent : Tail → Prop
  | drop : IsSilent .drop
  | store (k : Nat) : IsSilent (.store (temporaryName k))
  | give : IsSilent .give

theorem sourceMentions_of_isTemporary {n : Node} (h : isTemporary n = true) :
    withoutTemporaries n.mentions = [] := by
  cases n with
  | var token path binding =>
    rw [isTemporary_eq] at h
    rw [Node.mentions]
    exact withoutTemporaries_singleton h
  | _ => cases h

/-- Nothing but what is mentioned in its value counts where a temporary is declared. -/
theorem sourceMentions_declare (token k : Nat) (type : Option ValueType) (value : Expr)
    (slot : Option Nat) :
    withoutTemporaries (Statement.declare token (temporaryName k) type value slot).mentions =
      withoutTemporaries (Expr.mentions value) := by
  rw [Statement.mentions, withoutTemporaries_append,
    withoutTemporaries_singleton (isTemporary_declare token k _), List.append_nil]

theorem sourceMentions_var (token k : Nat) (binding : Option Binding) :
    withoutTemporaries (Node.var token [temporaryName k] binding).mentions = [] := by
  rw [Node.mentions, withoutTemporaries_singleton (isTemporary_read token k)]

theorem spells_reserve (c : Conditional) :
    (reserve c).Spells fun ms temp => ms = [] ∧ ∃ k, temp = temporaryName k := by
  refine (Spells.fresh (P := fun ms temp => ms = [] ∧ ∃ k, temp = temporaryName k)
    fun k => ⟨rfl, k, rfl⟩).bind fun ms temp hfresh => ?_
  obtain ⟨rfl, k, rfl⟩ := hfresh
  refine (Spells.emit (P := fun more _ => more = []) ?_).bind fun more _ hm => ?_
  · rw [sourceMentions_declare, Expr.mentions_nil, withoutTemporaries_nil]
  · subst hm
    split
    · exact Spells.fail rfl
    · exact Spells.pure ⟨rfl, k, rfl⟩

/-- An operand that is parked leaves its mentions in what is written. -/
theorem spells_park (token : Nat) (operand : Expr) : (park token operand).Spells fun ms e =>
    ms = withoutTemporaries (Expr.mentions operand) ∧
      withoutTemporaries (Expr.mentions e) = [] := by
  rcases park_cases token operand with ⟨n, rfl, hn, hp⟩ | hp
  · have hnone : withoutTemporaries n.mentions = [] := by
      rcases Bool.or_eq_true_iff.mp hn with hliteral | htemp
      · rw [Node.mentions_of_isLiteral hliteral, withoutTemporaries_nil]
      · exact sourceMentions_of_isTemporary htemp
    rw [hp]
    exact Spells.pure (by simp [hnone])
  · rw [hp]
    refine (Spells.fresh (P := fun ms temp => ms = [] ∧ ∃ k, temp = temporaryName k)
      fun k => ⟨rfl, k, rfl⟩).bind fun ms temp hfresh => ?_
    obtain ⟨rfl, k, rfl⟩ := hfresh
    refine (Spells.emit (P := fun more _ => more = withoutTemporaries (Expr.mentions operand))
      (sourceMentions_declare token k none operand none)).bind fun more _ hm => ?_
    subst hm
    exact Spells.pure ⟨by simp, by simp [sourceMentions_var]⟩

/-- All mentions of the operands on a stack are written when they are spilled. -/
theorem spells_spill (token : Nat) (operands : List Expr) :
    (spill token operands).Spells fun ms spilled =>
      ms = withoutTemporaries (Expr.mentions (nodesOnStack operands)) ∧
        withoutTemporaries (Expr.mentions (nodesOnStack spilled)) = [] := by
  induction operands with
  | nil => exact Spells.pure ⟨rfl, rfl⟩
  | cons operand below ih =>
    refine ih.bind fun ms below' hbelow => (spells_park token operand).bind
      fun more operand' hoperand => Spells.pure ⟨?_, ?_⟩
    · rw [nodesOnStack_cons, Expr.mentions_append, withoutTemporaries_append, hbelow.1, hoperand.1,
        List.append_nil]
    · rw [nodesOnStack_cons, Expr.mentions_append, withoutTemporaries_append, hbelow.2, hoperand.2,
        List.append_nil]

/-- What is written and what is left of an expression hold the mentions of both the stack and the
nodes that are still to come. Something is left if there was something. -/
theorem spells_hoistFrom {depth : Nat} {nodes : Expr}
    (hc : ∀ c, .cond c ∈ nodes → ∀ tail : Tail, tail.IsSilent →
      (flattenConditional depth tail c).Spells fun ms _ => ms = withoutTemporaries c.mentions)
    (operands : List Expr) :
    (hoistFrom depth operands nodes).Spells fun ms e =>
      ms ++ withoutTemporaries (Expr.mentions e) =
        withoutTemporaries (Expr.mentions (nodesOnStack operands)) ++
          withoutTemporaries (Expr.mentions nodes) ∧
      e.isEmpty = (nodesOnStack operands ++ nodes).isEmpty := by
  induction nodes generalizing operands with
  | nil =>
    rw [hoistFrom]
    exact Spells.pure (by simp)
  | cons n rest ih =>
    have hr := ih fun c hm => hc c (List.mem_cons_of_mem _ hm)
    cases hn : n.isConditional with
    | false =>
      rw [hoistFrom_cons hn]
      refine (hr (pushNode operands n)).weaken fun ms e he => ?_
      rw [nodesOnStack_pushNode, List.append_assoc, List.singleton_append] at he
      refine ⟨?_, he.2⟩
      rw [he.1, Expr.mentions_append, Expr.mentions_cons, Expr.mentions_cons, Expr.mentions_nil,
        List.append_nil, withoutTemporaries_append, withoutTemporaries_append, List.append_assoc]
    | true =>
      obtain ⟨c, rfl⟩ := exists_cond_of_isConditional hn
      rw [hoistFrom]
      refine (spells_spill c.token operands).bind fun ms spilled hs =>
        (spells_reserve c).bind fun more temp hreserve => ?_
      obtain ⟨hspill, hspilled⟩ := hs
      obtain ⟨rfl, k, rfl⟩ := hreserve
      refine (hc c List.mem_cons_self (.store (temporaryName k)) (.store k)).bind
        fun more' _ hcond => (hr _).weaken fun last e he => ?_
      have htemp : withoutTemporaries (Expr.mentions
          (nodesOnStack ([.var c.token [temporaryName k] none] :: spilled))) = [] := by
        rw [nodesOnStack_cons, Expr.mentions_append, withoutTemporaries_append, hspilled]
        simp [sourceMentions_var]
      rw [htemp, List.nil_append] at he
      subst hspill hcond
      refine ⟨?_, he.2.trans ?_⟩
      · simp only [List.append_assoc, List.nil_append, he.1, Expr.mentions_cons, Node.mentions,
          withoutTemporaries_append]
      · rw [nodesOnStack_cons, List.isEmpty_eq_false_iff.mpr (by simp),
          List.isEmpty_eq_false_iff.mpr (by simp)]

/-- The mentions of an expression that is hoisted are in what is written and in what is left. -/
theorem spells_hoistFrom_nil {depth : Nat} {value : Expr}
    (hc : ∀ c, .cond c ∈ value → ∀ tail : Tail, tail.IsSilent →
      (flattenConditional depth tail c).Spells fun ms _ => ms = withoutTemporaries c.mentions) :
    (hoistFrom depth [] value).Spells fun ms e =>
      ms ++ withoutTemporaries (Expr.mentions e) = withoutTemporaries (Expr.mentions value) ∧
        e.isEmpty = value.isEmpty :=
  spells_hoistFrom hc []

theorem sourceMentions_tailStatement {tail : Tail} (h : tail.IsSilent) (token : Nat)
    (value : Expr) :
    withoutTemporaries (tail.statement token value).mentions =
      withoutTemporaries (Expr.mentions value) := by
  cases h with
  | drop | give => rw [Tail.statement, Statement.mentions]
  | store k =>
    rw [Tail.statement, Statement.mentions, withoutTemporaries_append,
      withoutTemporaries_singleton (isTemporary_write token k), List.append_nil]

theorem spells_eval {depth : Nat} {value : Expr}
    (hc : ∀ c, .cond c ∈ value → ∀ tail : Tail, tail.IsSilent →
      (flattenConditional depth tail c).Spells fun ms _ => ms = withoutTemporaries c.mentions)
    (token : Nat) {tail : Tail} (htail : tail.IsSilent) :
    (flattenStatement depth tail (.eval token value)).Spells fun ms _ =>
      ms = withoutTemporaries (Expr.mentions value) := by
  by_cases hdrop : ∃ c, tail = .drop ∧ value = [.cond c]
  · obtain ⟨c, rfl, rfl⟩ := hdrop
    rw [flattenStatement, Expr.mentions_cons, Expr.mentions_nil, List.append_nil, Node.mentions]
    exact hc c List.mem_cons_self _ htail
  · rw [flattenStatement_eval fun c ht hv => hdrop ⟨c, ht, hv⟩]
    refine (spells_hoistFrom_nil hc).bind fun ms e he => Spells.emit ?_
    rw [sourceMentions_tailStatement htail, he.1]

theorem mentions_exitUnless (token : Nat) (e : Expr) :
    (exitUnless token e).mentions = Expr.mentions e := by
  simp [exitUnless, Conditional.ofBlocks, Statement.mentions, Conditional.mentions, Node.mentions]

mutual

theorem spells_conditionals (depth : Nat) :
    ∀ (nodes : List Node) (c : Conditional), .cond c ∈ nodes → ∀ tail : Tail, tail.IsSilent →
      (flattenConditional depth tail c).Spells fun ms _ => ms = withoutTemporaries c.mentions
  | .cond c :: rest, c', hc, tail, htail => by
    rcases List.mem_cons.mp hc with heq | hr
    · cases heq
      exact spells_flattenConditional depth c tail htail
    · exact spells_conditionals depth rest c' hr tail htail
  | .int .. :: rest, c', hc, tail, htail | .float .. :: rest, c', hc, tail, htail
  | .bool .. :: rest, c', hc, tail, htail | .var .. :: rest, c', hc, tail, htail
  | .op .. :: rest, c', hc, tail, htail | .call .. :: rest, c', hc, tail, htail =>
    spells_conditionals depth rest c' (by simpa using hc) tail htail

theorem spells_flattenConditional (depth : Nat) :
    ∀ (c : Conditional) (tail : Tail), tail.IsSilent →
      (flattenConditional depth tail c).Spells fun ms _ => ms = withoutTemporaries c.mentions
  | .mk _ condition onTrue onFalse _ _, tail, htail => by
    rw [flattenConditional]
    refine (spells_hoistFrom_nil (spells_conditionals depth condition)).bind fun ms e he =>
      (spells_flattenBlock depth onTrue tail htail).capture.bind fun more onTrue' ht =>
        (spells_flattenBlock depth onFalse tail htail).capture.bind fun more' onFalse' hf =>
          Spells.emit ?_
    obtain ⟨rfl, ht⟩ := ht
    obtain ⟨rfl, hf⟩ := hf
    unfold Block.sourceMentions at ht hf
    simp only [Statement.mentions, Conditional.mentions, withoutTemporaries_append, ht, hf, ← he.1,
      List.append_assoc, List.nil_append]

theorem spells_flattenStatement (depth : Nat) :
    ∀ (s : Statement) (tail : Tail), tail.IsSilent →
      (flattenStatement depth tail s).Spells fun ms _ => ms = withoutTemporaries s.mentions
  | .declare _ _ _ value _, tail, _ => by
    rw [flattenStatement]
    refine (spells_hoistFrom_nil (spells_conditionals depth value)).bind fun ms e he =>
      Spells.emit ?_
    rw [Statement.mentions, Statement.mentions, withoutTemporaries_append,
      withoutTemporaries_append, ← List.append_assoc, he.1, he.2]
  | .assign _ _ value, tail, _ => by
    rw [flattenStatement]
    refine (spells_hoistFrom_nil (spells_conditionals depth value)).bind fun ms e he =>
      Spells.emit ?_
    rw [Statement.mentions, Statement.mentions, withoutTemporaries_append,
      withoutTemporaries_append, ← List.append_assoc, he.1]
  | .ret _ value, tail, _ => by
    rw [flattenStatement]
    refine (spells_hoistFrom_nil (spells_conditionals depth value)).bind fun ms e he =>
      Spells.emit ?_
    rw [Statement.mentions, Statement.mentions, he.1]
  | .eval token value, tail, htail => by
    rw [Statement.mentions]
    exact spells_eval (spells_conditionals depth value) token htail
  | .cond c, tail, htail => by
    rw [flattenStatement, Statement.mentions]
    exact spells_flattenConditional depth c tail htail
  | .loop token condition body, tail, _ => by
    rw [flattenStatement]
    refine (spells_flattenBlock (depth + 1) body .drop .drop).capture.bind fun ms body' hbody => ?_
    obtain ⟨rfl, hb⟩ := hbody
    unfold Block.sourceMentions at hb
    split
    · -- the condition moves into the body, in front of what was there
      have htest : (do emit (exitUnless token (← hoistFrom (depth + 1) [] condition))).Spells
          fun ms _ => ms = withoutTemporaries (Expr.mentions condition) := by
        refine (spells_hoistFrom_nil (spells_conditionals (depth + 1) condition)).bind
          fun ms e he => Spells.emit ?_
        rw [mentions_exitUnless, he.1]
      refine htest.capture.bind fun more test hcaptured => Spells.emit ?_
      obtain ⟨rfl, ht⟩ := hcaptured
      unfold Block.sourceMentions at ht
      simp only [Statement.mentions, Expr.mentions_cons, Expr.mentions_nil, Node.mentions,
        Block.mentions_append, withoutTemporaries_append, ht, hb, List.nil_append]
    · refine Spells.emit ?_
      rw [Statement.mentions, Statement.mentions, withoutTemporaries_append,
        withoutTemporaries_append, hb]
      rfl
  | .exit _ _, tail, _ | .next _, tail, _ => by
    rw [flattenStatement]
    split
    · exact Spells.fail rfl
    · exact Spells.emit rfl

theorem spells_flattenBlock (depth : Nat) :
    ∀ (b : List Statement) (tail : Tail), tail.IsSilent →
      (flattenBlock depth tail b).Spells fun ms _ => ms = Block.sourceMentions b
  | [], tail, _ => by
    rw [flattenBlock]
    exact Spells.pure (by rw [Block.sourceMentions, Block.mentions_nil, withoutTemporaries_nil])
  | s :: rest, tail, htail => by
    rw [flattenBlock]
    have hlast : (if rest.isEmpty then tail else .drop).IsSilent := by
      split
      · exact htail
      · exact .drop
    refine (spells_flattenStatement depth s _ hlast).bind fun ms _ hn =>
      (spells_flattenBlock depth rest tail htail).weaken fun more _ hm => ?_
    rw [Block.sourceMentions, Block.mentions_cons, withoutTemporaries_append, hn, hm,
      Block.sourceMentions]

end

mutual

theorem mentions_markStatement : ∀ s : Statement, (markStatement s).1.mentions = s.mentions
  | .cond c => by
    rw [markStatement, Statement.mentions, Statement.mentions]
    exact mentions_markConditional c
  | .loop _ condition body => by
    rw [markStatement, Statement.mentions, Statement.mentions, mentions_markBlock body]
  | .declare .. | .assign .. | .eval .. | .ret .. | .exit .. | .next .. => rfl

theorem mentions_markConditional :
    ∀ c : Conditional, (markConditional c).1.mentions = c.mentions
  | .mk _ condition onTrue onFalse _ _ => by
    rw [markConditional, Conditional.mentions, Conditional.mentions, mentions_markBlock onTrue,
      mentions_markBlock onFalse]

theorem mentions_markBlock :
    ∀ b : List Statement, Block.mentions (markBlock b).1 = Block.mentions b
  | [] => by rw [markBlock]
  | s :: rest => by
    rw [markBlock, Block.mentions_cons, Block.mentions_cons, mentions_markStatement s,
      mentions_markBlock rest]

end

theorem spells_flattenFunction (f : Function) : (flattenFunction f).Spells fun ms f' =>
    ms = [] ∧ ∃ body, f' = { f with body } ∧
      Block.sourceMentions body = Block.sourceMentions f.body := by
  have htail : (if f.returnType.isVoid then Tail.drop else .give).IsSilent := by
    split
    · exact .drop
    · exact .give
  refine (spells_flattenBlock 0 f.body _ htail).capture.bind fun ms body hbody => ?_
  obtain ⟨rfl, hb⟩ := hbody
  have hmarked : Block.sourceMentions (markBlock body).1 = Block.sourceMentions f.body := by
    rw [← hb, Block.sourceMentions, mentions_markBlock, Block.sourceMentions]
  rcases hm : markBlock body with ⟨marked, returns⟩
  rw [hm] at hmarked
  dsimp only
  split
  · exact Spells.pure ⟨rfl, marked, rfl, hmarked⟩
  · exact Spells.fail rfl

theorem spells_flattenItems (items : List Item) : (flattenItems items).Spells fun ms items' =>
    ms = [] ∧ List.Forall₂ (Item.Keeps Block.sourceMentions) items items' := by
  induction items with
  | nil => exact Spells.pure ⟨rfl, .nil⟩
  | cons i rest ih =>
    cases i with
    | function f =>
      refine (spells_flattenFunction f).bind fun ms f' hf =>
        ih.bind fun more rest' hrest => Spells.pure ?_
      obtain ⟨rfl, body, rfl, hb⟩ := hf
      obtain ⟨rfl, hr⟩ := hrest
      exact ⟨rfl, .cons (.function f hb) hr⟩
    | _ =>
      refine ih.bind fun ms rest' hrest => Spells.pure ?_
      obtain ⟨rfl, hr⟩ := hrest
      exact ⟨rfl, .cons (.other rfl) hr⟩

/-- Of an item only the body of a function is changed, and that keeps what is mentioned but for
temporaries. -/
theorem keeps_normalize {items items' : List Item} (h : normalize items = .ok items') :
    List.Forall₂ (Item.Keeps Block.sourceMentions) items items' := by
  have hspells := spells_flattenItems items 0
  change ((flattenItems items).run 0).result = _ at h
  rw [h] at hspells
  exact hspells.2

/-- All that is found fault with is control flow. -/
theorem category_of_normalize {items : List Item} {fault : Fault}
    (h : normalize items = .error fault) : fault.cause.category = .controlFlow := by
  have hspells := spells_flattenItems items 0
  change ((flattenItems items).run 0).result = _ at h
  rw [h] at hspells
  exact hspells

end ControlFlow

end FrontEnd
