import FrontEnd.Proofs.References.Flattening
import FrontEnd.Proofs.Scoping.SourceNames

/-!
# Flattening keeps what is found

What is written in front of a statement declares nothing but temporaries in its block. So a
name stands for what it stood for wherever it is moved to, also where the condition of a
loop moves into the scope of its body. In their order all places of a source are found as
they were; the places of temporaries come between them.
-/

namespace FrontEnd.ControlFlow

open Emit

variable {α β : Type}

/-- A computation that succeeds only with a result and a written block of which `P` holds. -/
def Emit.Yields (P : Block → α → Prop) (x : Emit α) : Prop :=
  ∀ temps, match (x.run temps).result with
    | .ok a => P (x.run temps).block a
    | .error _ => True

namespace Emit.Yields

variable {P : Block → α → Prop} {Q : Block → β → Prop}

theorem pure {a : α} (h : P [] a) : Yields P (Pure.pure a : Emit α) := fun _ => h

theorem fail {fault : Fault} : Yields P (Emit.fail fault : Emit α) := fun _ => trivial

theorem emit {P : Block → Unit → Prop} {s : Statement} (h : P [s] ()) : Yields P (Emit.emit s) :=
  fun _ => h

theorem fresh {P : Block → String → Prop} (h : ∀ k, P [] (temporaryName k)) :
    Yields P Emit.fresh := fun temps => h temps

theorem bind {x : Emit α} {f : α → Emit β} (h : Yields P x)
    (hf : ∀ b a, P b a → Yields (fun more c => Q (b ++ more) c) (f a)) : Yields Q (x >>= f) := by
  intro temps
  have hx := h temps
  rcases hr : x.run temps with ⟨fault | a, block, mid⟩
  · rw [run_bind_error hr]
    exact trivial
  · rw [hr] at hx
    have ha := hf _ a hx mid
    rw [run_bind_ok hr]
    exact ha

theorem weaken {P' : Block → α → Prop} {x : Emit α} (h : Yields P x)
    (hP : ∀ b a, P b a → P' b a) : Yields P' x := by
  intro temps
  have hx := h temps
  cases hr : (x.run temps).result with
  | error fault => exact trivial
  | ok a =>
    rw [hr] at hx
    exact hP _ a hx

theorem capture {P : Block → Prop} {x : Emit Unit} (h : Yields (fun b _ => P b) x) :
    Yields (fun b captured => b = [] ∧ P captured) (Emit.capture x) := by
  intro temps
  have hx := h temps
  rcases hr : x.run temps with ⟨fault | a, block, mid⟩
  · rw [run_capture_error hr]
    exact trivial
  · rw [hr] at hx
    rw [run_capture_ok hr]
    exact ⟨rfl, hx⟩

end Emit.Yields

/-- What is found at the places of a source in an expression. -/
def seen (referent? : String → Option Referent) (e : Expr) : List Finding :=
  sourceFindings (Expr.findings referent? e)

@[simp]
theorem seen_nil (referent? : String → Option Referent) : seen referent? [] = [] := by
  rw [seen, Expr.findings_nil, sourceFindings_nil]

@[simp]
theorem seen_cons (referent? : String → Option Referent) (n : Node) (rest : Expr) :
    seen referent? (n :: rest) = sourceFindings (n.findings referent?) ++ seen referent? rest := by
  rw [seen, Expr.findings_cons, sourceFindings_append, seen]

@[simp]
theorem seen_append (referent? : String → Option Referent) (e e' : Expr) :
    seen referent? (e ++ e') = seen referent? e ++ seen referent? e' := by
  rw [seen, Expr.findings_append, sourceFindings_append, seen, seen]

theorem sourceFindings_var (referent? : String → Option Referent) (token k : Nat)
    (binding : Option Binding) :
    sourceFindings ((Node.var token [temporaryName k] binding).findings referent?) = [] := by
  rw [Node.findings, sourceFindings_ofPath_temporaryName]

theorem sourceFindings_of_isTemporary (referent? : String → Option Referent) {n : Node}
    (h : isTemporary n = true) : sourceFindings (n.findings referent?) = [] := by
  cases n with
  | var token path binding =>
    rw [isTemporary_eq] at h
    rw [Node.findings]
    match path with
    | [] | _ :: _ :: _ => rfl
    | [_] => exact sourceFindings_singleton h
  | _ => cases h

theorem findings_of_isLiteral (referent? : String → Option Referent) {n : Node}
    (h : n.isLiteral = true) : n.findings referent? = [] := by
  cases n with
  | int | float | bool => rw [Node.findings]
  | _ => cases h

theorem yields_reserve (c : Conditional) :
    (reserve c).Yields fun b temp => (b.Passes fun _ => []) ∧ ∃ k, temp = temporaryName k := by
  refine (Yields.fresh (P := fun b temp => b = [] ∧ ∃ k, temp = temporaryName k)
    fun k => ⟨rfl, k, rfl⟩).bind fun b temp hfresh => ?_
  obtain ⟨rfl, k, rfl⟩ := hfresh
  refine (Yields.emit (P := fun b _ => b.Passes fun _ => []) ?_).bind fun b _ hb => ?_
  · have hdeclare := Block.Passes.declare c.token k none [] none
    simpa using hdeclare
  · split
    · exact Yields.fail
    · exact Yields.pure ⟨by simpa using hb, k, rfl⟩

/-- An operand that is parked leaves its places in what is written. -/
theorem yields_park (token : Nat) (operand : Expr) :
    (park token operand).Yields fun b e =>
      (b.Passes fun referent? => seen referent? operand) ∧ ∀ referent?, seen referent? e = [] := by
  rcases park_cases token operand with ⟨n, rfl, hn, hp⟩ | hp
  · have hnone (referent? : String → Option Referent) : seen referent? [n] = [] := by
      rw [seen_cons, seen_nil, List.append_nil]
      rcases Bool.or_eq_true_iff.mp hn with hliteral | htemp
      · rw [findings_of_isLiteral referent? hliteral, sourceFindings_nil]
      · exact sourceFindings_of_isTemporary referent? htemp
    rw [hp]
    simp only [hnone]
    exact Yields.pure ⟨.nil, hnone⟩
  · rw [hp]
    refine (Yields.fresh (P := fun b temp => b = [] ∧ ∃ k, temp = temporaryName k)
      fun k => ⟨rfl, k, rfl⟩).bind fun b temp hfresh => ?_
    obtain ⟨rfl, k, rfl⟩ := hfresh
    refine (Yields.emit (P := fun b _ => b.Passes fun referent? => seen referent? operand)
      (.declare token k none operand none)).bind fun b _ hb => Yields.pure ⟨?_, fun referent? => ?_⟩
    · simpa using hb
    · rw [seen_cons, seen_nil, List.append_nil, sourceFindings_var]

/-- All places of the operands on a stack are in what is written when they are spilled. -/
theorem yields_spill (token : Nat) (operands : List Expr) :
    (spill token operands).Yields fun b spilled =>
      (b.Passes fun referent? => seen referent? (nodesOnStack operands)) ∧
        ∀ referent?, seen referent? (nodesOnStack spilled) = [] := by
  induction operands with
  | nil => exact Yields.pure ⟨.nil, fun _ => rfl⟩
  | cons operand below ih =>
    refine ih.bind fun b below' hbelow => (yields_park token operand).bind
      fun b' operand' hoperand => Yields.pure ⟨?_, fun referent? => ?_⟩
    · simp only [List.append_nil, nodesOnStack_cons, seen_append]
      exact hbelow.1.append hoperand.1
    · rw [nodesOnStack_cons, seen_append, hbelow.2, hoperand.2, List.append_nil]

/-- What is written for a conditional has its places. -/
def ConditionalPasses (depth : Nat) (c : Conditional) : Prop :=
  ∀ tail : Tail, tail.IsSilent → (flattenConditional depth tail c).Yields fun b _ =>
    b.Passes fun referent? => sourceFindings (c.findings referent?)

/-- What is written in front of an expression and what is left of it have some places together. -/
def Leads (fs : (String → Option Referent) → List Finding) (b : Block) (e : Expr) : Prop :=
  ∃ before, b.Passes before ∧ ∀ referent?, before referent? ++ seen referent? e = fs referent?

/-- What is written and what is left of an expression have the places of both the stack and the nodes
that are still to come. -/
theorem yields_hoistFrom {depth : Nat} {nodes : Expr}
    (hc : ∀ c, .cond c ∈ nodes → ConditionalPasses depth c) (operands : List Expr) :
    (hoistFrom depth operands nodes).Yields
      (Leads fun referent? => seen referent? (nodesOnStack operands) ++ seen referent? nodes) := by
  induction nodes generalizing operands with
  | nil =>
    rw [hoistFrom]
    exact Yields.pure ⟨_, .nil, fun referent? => by simp⟩
  | cons n rest ih =>
    have hr := ih fun c hm => hc c (List.mem_cons_of_mem _ hm)
    cases hn : n.isConditional with
    | false =>
      rw [hoistFrom_cons hn]
      refine (hr (pushNode operands n)).weaken fun b e he => ?_
      obtain ⟨before, hb, he⟩ := he
      refine ⟨before, hb, fun referent? => ?_⟩
      rw [he, nodesOnStack_pushNode]
      simp
    | true =>
      obtain ⟨c, rfl⟩ := exists_cond_of_isConditional hn
      rw [hoistFrom]
      refine (yields_spill c.token operands).bind fun b spilled hs =>
        (yields_reserve c).bind fun b' temp hreserve => ?_
      obtain ⟨hspill, hspilled⟩ := hs
      obtain ⟨hdeclare, k, rfl⟩ := hreserve
      refine (hc c List.mem_cons_self (.store (temporaryName k)) (.store k)).bind
        fun b'' _ hcond => (hr _).weaken fun last e he => ?_
      obtain ⟨before, hlast, he⟩ := he
      refine ⟨_, hspill.append (hdeclare.append (hcond.append hlast)), fun referent? => ?_⟩
      have htemp : seen referent?
          (nodesOnStack ([.var c.token [temporaryName k] none] :: spilled)) = [] := by
        rw [nodesOnStack_cons, seen_append, hspilled]
        simp [sourceFindings_var]
      have hleft : before referent? ++ seen referent? e = seen referent? rest := by
        refine (he referent?).trans ?_
        dsimp only
        rw [htemp, List.nil_append]
      simp only [List.append_assoc, List.nil_append, hleft, seen_cons, Node.findings]

/-- The places of an expression that is hoisted are in what is written and in what is left. -/
theorem yields_hoistFrom_nil {depth : Nat} {value : Expr}
    (hc : ∀ c, .cond c ∈ value → ConditionalPasses depth c) :
    (hoistFrom depth [] value).Yields (Leads fun referent? => seen referent? value) :=
  (yields_hoistFrom hc []).weaken fun b e he => by simpa [nodesOnStack] using he

/-! ## Statements -/

/-- A statement that stands where its expression has been hoisted, behind what has been written. -/
theorem Leads.standsFor {fs : (String → Option Referent) → List Finding} {b : Block} {e : Expr}
    (h : Leads fs b e) {s t : Statement}
    (hfindings : ∀ before : (String → Option Referent) → List Finding,
      (∀ referent?, before referent? ++ seen referent? e = fs referent?) → ∀ σ : NameScope,
        before σ.referent? ++ sourceFindings (t.findings σ) = sourceFindings (s.findings σ))
    (hafter : ∀ σ : NameScope, σ.after t = σ.after s) : (b ++ [t]).StandsFor s := by
  obtain ⟨before, hb, he⟩ := h
  refine ⟨fun σ => ?_, fun σ => ?_⟩
  · rw [Block.findings_append, Block.findings_cons, Block.findings_nil, List.append_nil,
      sourceFindings_append, hb.findings, t.sourceFindings_congr (hb.after σ)]
    exact hfindings before he σ
  · rw [NameScope.afterAll_append, ← hafter]
    exact (hb.after σ).after t

/-- A statement that declares nothing behind what has been written. -/
theorem Leads.passes {fs fs' : (String → Option Referent) → List Finding} {b : Block} {e : Expr}
    (h : Leads fs b e) {t : Statement}
    (hfindings : ∀ before : (String → Option Referent) → List Finding,
      (∀ referent?, before referent? ++ seen referent? e = fs referent?) → ∀ σ : NameScope,
        before σ.referent? ++ sourceFindings (t.findings σ) = fs' σ.referent?)
    (hafter : ∀ σ : NameScope, σ.after t = σ) : (b ++ [t]).Passes fs' := by
  obtain ⟨before, hb, he⟩ := h
  refine ⟨fun σ => ?_, fun σ => ?_⟩
  · rw [Block.findings_append, Block.findings_cons, Block.findings_nil, List.append_nil,
      sourceFindings_append, hb.findings, t.sourceFindings_congr (hb.after σ)]
    exact hfindings before he σ
  · rw [NameScope.afterAll_append]
    change (NameScope.after _ t).Agrees σ
    rw [hafter]
    exact hb.after σ

theorem after_tailStatement (tail : Tail) (σ : NameScope) (token : Nat) (value : Expr) :
    σ.after (tail.statement token value) = σ := by
  cases tail <;> rfl

theorem sourceFindings_tailStatement {tail : Tail} (h : tail.IsSilent) (token : Nat)
    (value : Expr) (σ : NameScope) :
    sourceFindings ((tail.statement token value).findings σ) = seen σ.referent? value := by
  cases h with
  | drop | give => rw [Tail.statement, Statement.findings, seen]
  | store k =>
    rw [Tail.statement, Statement.findings, sourceFindings_append,
      sourceFindings_ofPath_temporaryName, List.append_nil, seen]

theorem findings_exitUnless (token : Nat) (e : Expr) (σ : NameScope) :
    (exitUnless token e).findings σ = Expr.findings σ.referent? e := by
  simp [exitUnless, Conditional.ofBlocks, Statement.findings, Conditional.findings, Node.findings]

theorem yields_eval {depth : Nat} {value : Expr}
    (hc : ∀ c, .cond c ∈ value → ConditionalPasses depth c) (token : Nat) {tail : Tail}
    (htail : tail.IsSilent) :
    (flattenStatement depth tail (.eval token value)).Yields fun b _ =>
      b.StandsFor (.eval token value) := by
  by_cases hdrop : ∃ c, tail = .drop ∧ value = [.cond c]
  · obtain ⟨c, rfl, rfl⟩ := hdrop
    rw [flattenStatement]
    refine (hc c List.mem_cons_self _ htail).weaken fun b _ hb => hb.standsFor (fun σ => ?_)
      fun _ => rfl
    rw [Statement.findings, Expr.findings_cons, Expr.findings_nil, List.append_nil, Node.findings]
  · rw [flattenStatement_eval fun c ht hv => hdrop ⟨c, ht, hv⟩]
    refine (yields_hoistFrom_nil hc).bind fun b e he => Yields.emit ?_
    refine he.standsFor (fun before hbefore σ => ?_) fun σ => after_tailStatement tail σ token e
    rw [sourceFindings_tailStatement htail, hbefore, Statement.findings, seen]

mutual

theorem yields_conditionals (depth : Nat) :
    ∀ (nodes : List Node) (c : Conditional), .cond c ∈ nodes → ConditionalPasses depth c
  | .cond c :: rest, c', hc => by
    rcases List.mem_cons.mp hc with heq | hr
    · cases heq
      exact yields_flattenConditional depth c
    · exact yields_conditionals depth rest c' hr
  | .int .. :: rest, c', hc | .float .. :: rest, c', hc | .bool .. :: rest, c', hc
  | .var .. :: rest, c', hc | .op .. :: rest, c', hc | .call .. :: rest, c', hc =>
    yields_conditionals depth rest c' (by simpa using hc)

theorem yields_flattenConditional (depth : Nat) :
    ∀ c : Conditional, ConditionalPasses depth c
  | .mk _ condition onTrue onFalse _ _, tail, htail => by
    rw [flattenConditional]
    refine (yields_hoistFrom_nil (yields_conditionals depth condition)).bind fun b e he =>
      (yields_flattenBlock depth onTrue tail htail).capture.bind fun b' onTrue' ht =>
        (yields_flattenBlock depth onFalse tail htail).capture.bind fun b'' onFalse' hf =>
          Yields.emit ?_
    obtain ⟨rfl, ht⟩ := ht
    obtain ⟨rfl, hf⟩ := hf
    refine he.passes (fun before hbefore σ => ?_) fun _ => rfl
    simp only [Statement.findings, Conditional.findings, sourceFindings_append, ht, hf,
      ← List.append_assoc]
    rw [← seen, hbefore, seen]

theorem yields_flattenStatement (depth : Nat) :
    ∀ (s : Statement) (tail : Tail), tail.IsSilent →
      (flattenStatement depth tail s).Yields fun b _ => b.StandsFor s
  | .declare _ _ _ value _, tail, _ | .assign _ _ value, tail, _ => by
    rw [flattenStatement]
    refine (yields_hoistFrom_nil (yields_conditionals depth value)).bind fun b e he =>
      Yields.emit (he.standsFor (fun before hbefore σ => ?_) fun _ => rfl)
    rw [Statement.findings, Statement.findings, sourceFindings_append, sourceFindings_append,
      ← List.append_assoc]
    exact congrArg (· ++ _) (hbefore σ.referent?)
  | .ret _ value, tail, _ => by
    rw [flattenStatement]
    refine (yields_hoistFrom_nil (yields_conditionals depth value)).bind fun b e he =>
      Yields.emit (he.standsFor (fun before hbefore σ => ?_) fun _ => rfl)
    rw [Statement.findings, Statement.findings]
    exact hbefore σ.referent?
  | .eval token value, tail, htail => yields_eval (yields_conditionals depth value) token htail
  | .cond c, tail, htail => by
    rw [flattenStatement]
    refine (yields_flattenConditional depth c tail htail).weaken fun b _ hb =>
      hb.standsFor (fun σ => ?_) fun _ => rfl
    rw [Statement.findings]
  | .loop token condition body, tail, _ => by
    rw [flattenStatement]
    refine (yields_flattenBlock (depth + 1) body .drop .drop).capture.bind fun b body' hbody => ?_
    obtain ⟨rfl, hbody⟩ := hbody
    split
    · -- the condition moves into the scope of the body, in front of what was there
      have htest : (do emit (exitUnless token (← hoistFrom (depth + 1) [] condition))).Yields
          fun b _ => b.Passes fun referent? => seen referent? condition := by
        refine (yields_hoistFrom_nil (yields_conditionals (depth + 1) condition)).bind
          fun b e he => Yields.emit (he.passes (fun before hbefore σ => ?_) fun _ => rfl)
        rw [findings_exitUnless, ← seen, hbefore]
      refine htest.capture.bind fun b test hcaptured => Yields.emit ?_
      obtain ⟨rfl, htest⟩ := hcaptured
      refine .singleton (fun σ => ?_) fun _ => rfl
      rw [Statement.findings, Statement.findings, Block.findings_append, Expr.findings_cons,
        Expr.findings_nil, Node.findings]
      simp only [sourceFindings_append, List.nil_append]
      rw [htest.findings, Block.sourceFindings_congr body' (htest.after _), hbody, seen]
    · refine Yields.emit (.singleton (fun σ => ?_) fun _ => rfl)
      rw [Statement.findings, Statement.findings, sourceFindings_append, sourceFindings_append,
        hbody]
  | .exit _ _, tail, _ | .next _, tail, _ => by
    rw [flattenStatement]
    split
    · exact Yields.fail
    · exact Yields.emit (.singleton (fun _ => rfl) fun _ => rfl)

theorem yields_flattenBlock (depth : Nat) :
    ∀ (b : List Statement) (tail : Tail), tail.IsSilent →
      (flattenBlock depth tail b).Yields fun b' _ => ∀ σ,
        sourceFindings (Block.findings σ b') = sourceFindings (Block.findings σ b)
  | [], tail, _ => by
    rw [flattenBlock]
    exact Yields.pure fun σ => rfl
  | s :: rest, tail, htail => by
    rw [flattenBlock]
    have hlast : (if rest.isEmpty then tail else .drop).IsSilent := by
      split
      · exact htail
      · exact .drop
    refine (yields_flattenStatement depth s _ hlast).bind fun b _ hs =>
      (yields_flattenBlock depth rest tail htail).weaken fun b' _ hrest σ => ?_
    rw [Block.findings_append, Block.findings_cons, sourceFindings_append, sourceFindings_append,
      hs.findings, hrest, Block.sourceFindings_congr rest (hs.after σ)]

end

/-! ## Items -/

theorem after_markStatement (σ : NameScope) (s : Statement) :
    σ.after (markStatement s).1 = σ.after s := by
  cases s <;> rfl

mutual

theorem findings_markStatement : (s : Statement) → (σ : NameScope) →
    (markStatement s).1.findings σ = s.findings σ
  | .cond c, σ => by
    rw [markStatement, Statement.findings, Statement.findings]
    exact findings_markConditional c σ.referent?
  | .loop _ condition body, σ => by
    rw [markStatement, Statement.findings, Statement.findings, findings_markBlock body]
  | .declare .., _ | .assign .., _ | .eval .., _ | .ret .., _ | .exit .., _ | .next .., _ => rfl

theorem findings_markConditional : (c : Conditional) → (referent? : String → Option Referent) →
    (markConditional c).1.findings referent? = c.findings referent?
  | .mk _ condition onTrue onFalse _ _, referent? => by
    rw [markConditional, Conditional.findings, Conditional.findings, findings_markBlock onTrue,
      findings_markBlock onFalse]

/-- Marks do not change what is found. -/
theorem findings_markBlock : (b : List Statement) → (σ : NameScope) →
    Block.findings σ (markBlock b).1 = Block.findings σ b
  | [], σ => by rw [markBlock]
  | s :: rest, σ => by
    rw [markBlock, Block.findings_cons, Block.findings_cons, findings_markStatement s,
      after_markStatement, findings_markBlock rest]

end

theorem yields_flattenFunction (f : Function) : (flattenFunction f).Yields fun _ f' =>
    ∃ body, f' = { f with body } ∧ Block.sourceView body = Block.sourceView f.body := by
  have htail : (if f.returnType.isVoid then Tail.drop else .give).IsSilent := by
    split
    · exact .drop
    · exact .give
  refine (yields_flattenBlock 0 f.body _ htail).capture.bind fun b body hbody => ?_
  obtain ⟨rfl, hbody⟩ := hbody
  have hmarked : Block.sourceView (markBlock body).1 = Block.sourceView f.body := by
    funext σ
    rw [Block.sourceView, findings_markBlock, hbody, Block.sourceView]
  rcases hm : markBlock body with ⟨marked, returns⟩
  rw [hm] at hmarked
  dsimp only
  split
  · exact Yields.pure ⟨marked, rfl, hmarked⟩
  · exact Yields.fail

theorem yields_flattenItems (items : List Item) : (flattenItems items).Yields fun _ items' =>
    List.Forall₂ (Item.Keeps Block.sourceView) items items' := by
  induction items with
  | nil => exact Yields.pure .nil
  | cons i rest ih =>
    cases i with
    | function f =>
      refine (yields_flattenFunction f).bind fun _ f' hf =>
        ih.bind fun _ rest' hrest => Yields.pure ?_
      obtain ⟨body, rfl, hbody⟩ := hf
      exact .cons (.function f hbody) hrest
    | _ => exact ih.bind fun _ rest' hrest => Yields.pure (.cons (.other rfl) hrest)

/-- Of an item only the body of a function is changed, and that keeps what is found at the places of
the source. -/
theorem keepsFindings_normalize {items items' : List Item} (h : normalize items = .ok items') :
    List.Forall₂ (Item.Keeps Block.sourceView) items items' := by
  have hyields := yields_flattenItems items 0
  change ((flattenItems items).run 0).result = _ at h
  rw [h] at hyields
  exact hyields

end FrontEnd.ControlFlow
