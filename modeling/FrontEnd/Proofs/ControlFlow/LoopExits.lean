import FrontEnd.Proofs.ControlFlow.Hoisting
import FrontEnd.Proofs.Tree.LoopExits

/-!
# Flattening keeps the exits of loops

Every exit of the source is written once, in the same order and inside the same loops:
those of a conditional come before the statement that the conditional is taken out of, and
those of the condition of a loop move into its body, where they stand before those of the
body. Beside them only the tests of such conditions are written. What is accepted has no
exit without a loop for it, and what is refused for such an exit has it.
-/

namespace FrontEnd

/-- What is written has the exits of a source in their order, and some tests. None of them lacks a
loop. -/
structure KeepsExits (source tests written : List LoopExit) : Prop where
  sublist : source.Sublist written
  perm : written.Perm (source ++ tests)
  bound : ∀ x ∈ written, x.IsBound

namespace KeepsExits

variable {source source' tests tests' written written' : List LoopExit}

theorem nil : KeepsExits [] [] [] := ⟨.refl _, .refl _, List.forall_mem_nil _⟩

theorem append (h : KeepsExits source tests written) (h' : KeepsExits source' tests' written') :
    KeepsExits (source ++ source') (tests ++ tests') (written ++ written') := by
  refine ⟨h.sublist.append h'.sublist, ?_, List.forall_mem_append.mpr ⟨h.bound, h'.bound⟩⟩
  calc (written ++ written').Perm ((source ++ tests) ++ (source' ++ tests')) := h.perm.append h'.perm
    List.Perm _ ((source ++ source') ++ (tests ++ tests')) := by
      rw [List.append_assoc, List.append_assoc]
      refine List.Perm.append_left source ?_
      rw [← List.append_assoc, ← List.append_assoc]
      exact List.perm_append_comm.append_right tests'

/-- An exit of the source that has a loop. -/
theorem exit {x : LoopExit} (h : x.IsBound) : KeepsExits [x] [] [x] :=
  ⟨.refl _, .refl _, fun _ hx => List.mem_singleton.mp hx ▸ h⟩

/-- A test of a condition that has been written. -/
theorem test {x : LoopExit} (h : x.IsBound) : KeepsExits [] [x] [x] :=
  ⟨List.nil_sublist _, .refl _, fun _ hx => List.mem_singleton.mp hx ▸ h⟩

theorem congr (h : KeepsExits source tests written) (ht : tests.Perm tests') :
    KeepsExits source tests' written :=
  ⟨h.sublist, h.perm.trans (ht.append_left source), h.bound⟩

end KeepsExits

/-- A fault that is about the amount of an exit is about one of these exits, and there are not as
many loops around it as it should leave. -/
def Fault.Blames (exits : List LoopExit) (fault : Fault) : Prop :=
  ∀ amount depth, fault.cause = .invalidBreak amount depth →
    ∃ loops, ⟨fault.token, some amount, loops⟩ ∈ exits ∧ loops.length = depth ∧
      (amount = 0 ∨ depth < amount)

namespace ControlFlow

open Emit

variable {α β : Type} {loops : List Nat} {exits : List LoopExit}

/-- A computation that writes statements inside some loops. If it succeeds, `P` holds of the exits
that it writes and of its result; if not, the fault blames one of the given exits, or none. -/
def Emit.Exits (loops : List Nat) (exits : List LoopExit) (P : List LoopExit → α → Prop)
    (x : Emit α) : Prop :=
  ∀ temps, match (x.run temps).result with
    | .ok a => P (Block.loopExits loops (x.run temps).block) a
    | .error fault => fault.Blames exits

namespace Emit.Exits

variable {P : List LoopExit → α → Prop} {Q : List LoopExit → β → Prop}

theorem pure {a : α} (h : P [] a) : Exits loops exits P (Pure.pure a : Emit α) := by
  intro temps
  rw [run_pure, Block.loopExits, Block.exits_nil]
  exact h

theorem fail {fault : Fault} (h : fault.Blames exits) :
    Exits loops exits P (Emit.fail fault : Emit α) := fun _ => h

theorem emit {P : List LoopExit → Unit → Prop} {s : Statement} (h : P (s.exits .own loops) ()) :
    Exits loops exits P (Emit.emit s) := by
  intro temps
  rw [run_emit, Block.loopExits, Block.exits_cons, Block.exits_nil, List.append_nil]
  exact h

theorem fresh : Exits loops exits (fun es _ => es = []) Emit.fresh := by
  intro temps
  rw [run_fresh, Block.loopExits, Block.exits_nil]

theorem bind {x : Emit α} {f : α → Emit β} (h : Exits loops exits P x)
    (hf : ∀ es a, P es a → Exits loops exits (fun more b => Q (es ++ more) b) (f a)) :
    Exits loops exits Q (x >>= f) := by
  intro temps
  have hx := h temps
  rcases hr : x.run temps with ⟨fault | a, block, mid⟩
  · rw [hr] at hx
    rw [run_bind_error hr]
    exact hx
  · rw [hr] at hx
    have ha := hf _ a hx mid
    rw [run_bind_ok hr, Block.loopExits, Block.exits_append]
    exact ha

/-- The first computation writes no exit. -/
theorem before {P : α → Prop} {x : Emit α} {f : α → Emit β}
    (h : Exits loops exits (fun es a => es = [] ∧ P a) x)
    (hf : ∀ a, P a → Exits loops exits Q (f a)) : Exits loops exits Q (x >>= f) := by
  refine h.bind fun es a ha => ?_
  obtain ⟨rfl, ha⟩ := ha
  exact hf a ha

theorem weaken {P' : List LoopExit → α → Prop} {x : Emit α} (h : Exits loops exits P x)
    (hP : ∀ es a, P es a → P' es a) : Exits loops exits P' x := by
  intro temps
  have hx := h temps
  cases hr : (x.run temps).result with
  | error fault =>
    rw [hr] at hx
    exact hx
  | ok a =>
    rw [hr] at hx
    exact hP _ a hx

/-- A block that is captured may stand inside other loops than what is written. -/
theorem capture {inner : List Nat} {P : List LoopExit → Prop} {x : Emit Unit}
    (h : Exits inner exits (fun es _ => P es) x) :
    Exits loops exits (fun es b => es = [] ∧ P (Block.loopExits inner b)) (Emit.capture x) := by
  intro temps
  have hx := h temps
  rcases hr : x.run temps with ⟨fault | a, block, mid⟩
  · rw [hr] at hx
    rw [run_capture_error hr]
    exact hx
  · rw [hr] at hx
    rw [run_capture_ok hr, Block.loopExits, Block.exits_nil]
    exact ⟨rfl, hx⟩

end Emit.Exits

/-- A computation that keeps the exits of a source, and may add tests. -/
def Emit.Keeps (loops : List Nat) (exits source tests : List LoopExit) (x : Emit Unit) : Prop :=
  x.Exits loops exits fun es _ => KeepsExits source tests es

/-- A conditional is flattened with its exits, whatever becomes of its value. -/
def ConditionalKeeps (loops : List Nat) (exits : List LoopExit) (c : Conditional) : Prop :=
  ∀ tail, (flattenConditional loops.length tail c).Keeps loops exits (c.exits .own loops)
    (c.exits .test loops)

theorem exits_reserve (c : Conditional) : (reserve c).Exits loops exits fun es _ => es = [] := by
  refine Exits.fresh.bind fun es temp hfresh => (Exits.emit (P := fun more _ => more = []) ?_).bind
    fun more _ hmore => ?_
  · rw [Statement.exits, Expr.exits_nil]
  · subst hfresh hmore
    split
    · exact Exits.fail nofun
    · exact Exits.pure rfl

theorem exits_park (token : Nat) {operand : Expr} (h : Expr.exits .own loops operand = []) :
    (park token operand).Exits loops exits fun es e =>
      es = [] ∧ Expr.exits .own loops e = [] := by
  rcases park_cases token operand with ⟨n, -, -, hp⟩ | hp
  · rw [hp]
    exact Exits.pure ⟨rfl, h⟩
  · rw [hp]
    refine Exits.fresh.bind fun es temp hfresh =>
      (Exits.emit (P := fun more _ => more = []) ?_).bind fun more _ hmore => Exits.pure ⟨?_, ?_⟩
    · rw [Statement.exits, h]
    · rw [hfresh, hmore]
      rfl
    · rw [Expr.exits_cons, Expr.exits_nil, Node.exits_of_not_isConditional rfl, List.append_nil]

/-- Operands without exits have none where they are spilled. -/
theorem exits_spill (token : Nat) {operands : List Expr}
    (h : Expr.exits .own loops (nodesOnStack operands) = []) :
    (spill token operands).Exits loops exits fun es spilled =>
      es = [] ∧ Expr.exits .own loops (nodesOnStack spilled) = [] := by
  induction operands with
  | nil => exact Exits.pure ⟨rfl, h⟩
  | cons operand below ih =>
    rw [nodesOnStack_cons, Expr.exits_append, List.append_eq_nil_iff] at h
    refine (ih h.1).bind fun es below' hbelow => (exits_park token h.2).bind
      fun more operand' hoperand => Exits.pure ⟨?_, ?_⟩
    · rw [hbelow.1, hoperand.1]
      rfl
    · rw [nodesOnStack_cons, Expr.exits_append, hbelow.2, hoperand.2, List.append_nil]

/-- The exits of the nodes that are still to come are all written in front of the expression. -/
theorem exits_hoistFrom {nodes : Expr} (hc : ∀ c, .cond c ∈ nodes → ConditionalKeeps loops exits c)
    {operands : List Expr} (h : Expr.exits .own loops (nodesOnStack operands) = []) :
    (hoistFrom loops.length operands nodes).Exits loops exits fun es e =>
      KeepsExits (Expr.exits .own loops nodes) (Expr.exits .test loops nodes) es ∧
        Expr.exits .own loops e = [] := by
  induction nodes generalizing operands with
  | nil =>
    rw [hoistFrom]
    exact Exits.pure ⟨by simpa using KeepsExits.nil, h⟩
  | cons n rest ih =>
    have hr : ∀ operands : List Expr, Expr.exits .own loops (nodesOnStack operands) = [] → _ :=
      fun _ => ih fun c hm => hc c (List.mem_cons_of_mem _ hm)
    cases hn : n.isConditional with
    | false =>
      rw [hoistFrom_cons hn]
      have hpush : Expr.exits .own loops (nodesOnStack (pushNode operands n)) = [] := by
        rw [nodesOnStack_pushNode, Expr.exits_append, h, Expr.exits_cons, Expr.exits_nil,
          Node.exits_of_not_isConditional hn]
        rfl
      refine (hr _ hpush).weaken fun es e he => ?_
      rwa [Expr.exits_cons, Expr.exits_cons, Node.exits_of_not_isConditional hn,
        Node.exits_of_not_isConditional hn]
    | true =>
      obtain ⟨c, rfl⟩ := exists_cond_of_isConditional hn
      rw [hoistFrom]
      refine (exits_spill c.token h).before fun spilled hspilled =>
        (exits_reserve c).bind fun es temp hreserve => ?_
      subst hreserve
      refine (hc c List.mem_cons_self _).bind fun more _ hcond => (hr _ ?_).weaken
        fun last e he => ?_
      · rw [nodesOnStack_cons, Expr.exits_append, hspilled, Expr.exits_cons, Expr.exits_nil,
          Node.exits_of_not_isConditional rfl]
        rfl
      · rw [Expr.exits_cons, Expr.exits_cons, Node.exits, Node.exits]
        exact ⟨hcond.append he.1, he.2⟩

theorem exits_hoist {value : Expr} (hc : ∀ c, .cond c ∈ value → ConditionalKeeps loops exits c) :
    (hoistFrom loops.length [] value).Exits loops exits fun es e =>
      KeepsExits (Expr.exits .own loops value) (Expr.exits .test loops value) es ∧
        Expr.exits .own loops e = [] :=
  exits_hoistFrom hc rfl

/-- A statement that is written with its hoisted expression has no exits but those in front of it. -/
theorem keeps_emit_hoist {value : Expr} (hc : ∀ c, .cond c ∈ value → ConditionalKeeps loops exits c)
    {make : Expr → Statement}
    (hmake : ∀ e, (make e).exits .own loops = Expr.exits .own loops e) :
    (do emit (make (← hoistFrom loops.length [] value)) : Emit Unit).Keeps loops exits
      (Expr.exits .own loops value) (Expr.exits .test loops value) := by
  refine (exits_hoist hc).bind fun es e he => Exits.emit ?_
  rw [hmake, he.2, List.append_nil]
  exact he.1

theorem exits_tailStatement (tail : Tail) (token : Nat) (e : Expr) :
    (tail.statement token e).exits .own loops = Expr.exits .own loops e := by
  cases tail <;> rw [Tail.statement, Statement.exits]

theorem keeps_eval {value : Expr} (hc : ∀ c, .cond c ∈ value → ConditionalKeeps loops exits c)
    (token : Nat) (tail : Tail) :
    (flattenStatement loops.length tail (.eval token value)).Keeps loops exits
      (Expr.exits .own loops value) (Expr.exits .test loops value) := by
  by_cases hdrop : ∃ c, tail = .drop ∧ value = [.cond c]
  · obtain ⟨c, rfl, rfl⟩ := hdrop
    rw [flattenStatement]
    simp only [Expr.exits_cons, Expr.exits_nil, Node.exits, List.append_nil]
    exact hc c List.mem_cons_self _
  · rw [flattenStatement_eval fun c ht hv => hdrop ⟨c, ht, hv⟩]
    exact keeps_emit_hoist hc (exits_tailStatement tail token)

/-- The test of a condition leaves the loop, after the exits in the condition. -/
theorem keeps_test {condition : Expr} {token : Nat}
    (hc : ∀ c, .cond c ∈ condition → ConditionalKeeps (token :: loops) exits c) :
    (do emit (exitUnless token (← hoistFrom (loops.length + 1) [] condition)) : Emit Unit).Keeps
      (token :: loops) exits (Expr.exits .own (token :: loops) condition)
      (Expr.exits .test (token :: loops) condition ++ [⟨token, some 1, token :: loops⟩]) := by
  refine (exits_hoist hc).bind fun es e he => Exits.emit ?_
  have hexit : (exitUnless token e).exits .own (token :: loops) =
      [⟨token, some 1, token :: loops⟩] := by
    simp [exitUnless, Conditional.ofBlocks, Statement.exits, Conditional.exits, Expr.exits_append,
      Node.exits, he.2, ExitRule.own]
  rw [hexit, ← List.append_nil (Expr.exits .own _ condition)]
  exact he.1.append (.test ⟨Nat.le_refl 1, Nat.succ_le_succ (Nat.zero_le _)⟩)

theorem keeps_exit {token amount : Nat} (h : ⟨token, some amount, loops⟩ ∈ exits) (tail : Tail) :
    (flattenStatement loops.length tail (.exit token amount)).Keeps loops exits
      [⟨token, some amount, loops⟩] [] := by
  rw [flattenStatement]
  split
  · next hbad =>
    refine Exits.fail fun amount' depth heq => ?_
    cases heq
    exact ⟨loops, h, rfl, hbad⟩
  · next hgood =>
    refine Exits.emit ?_
    rw [Statement.exits, ExitRule.own]
    exact .exit ⟨by omega, by omega⟩

theorem keeps_next (token : Nat) (tail : Tail) :
    (flattenStatement loops.length tail (.next token)).Keeps loops exits
      [⟨token, none, loops⟩] [] := by
  rw [flattenStatement]
  split
  · exact Exits.fail nofun
  · next hgood =>
    refine Exits.emit ?_
    rw [Statement.exits, ExitRule.own]
    exact .exit fun h => hgood (by rw [h]; rfl)

mutual

theorem keeps_conditionals : ∀ (nodes : List Node) (loops : List Nat),
    Expr.exits .own loops nodes ⊆ exits →
      ∀ c, .cond c ∈ nodes → ConditionalKeeps loops exits c
  | .cond c :: rest, loops, hsub, c', hc => by
    rw [Expr.exits_cons, List.append_subset, Node.exits] at hsub
    rcases List.mem_cons.mp hc with heq | hr
    · cases heq
      exact keeps_flattenConditional c loops hsub.1
    · exact keeps_conditionals rest loops hsub.2 c' hr
  | .int .. :: rest, loops, hsub, c', hc | .float .. :: rest, loops, hsub, c', hc
  | .bool .. :: rest, loops, hsub, c', hc | .var .. :: rest, loops, hsub, c', hc
  | .op .. :: rest, loops, hsub, c', hc | .call .. :: rest, loops, hsub, c', hc => by
    rw [Expr.exits_cons, List.append_subset] at hsub
    exact keeps_conditionals rest loops hsub.2 c' (by simpa using hc)

theorem keeps_flattenConditional : ∀ (c : Conditional) (loops : List Nat),
    c.exits .own loops ⊆ exits → ConditionalKeeps loops exits c
  | .mk _ condition onTrue onFalse _ _, loops, hsub, tail => by
    rw [Conditional.exits, List.append_subset, List.append_subset] at hsub
    obtain ⟨⟨hcondition, htrue⟩, hfalse⟩ := hsub
    rw [flattenConditional]
    refine (exits_hoist (keeps_conditionals condition loops hcondition)).bind fun es e he =>
      (keeps_flattenBlock onTrue loops htrue tail).capture.before fun onTrue' ht =>
        (keeps_flattenBlock onFalse loops hfalse tail).capture.before fun onFalse' hf =>
          Exits.emit ?_
    rw [Statement.exits, Conditional.exits, Conditional.exits, Conditional.exits, he.2,
      List.nil_append, ← List.append_assoc]
    exact (he.1.append ht).append hf

theorem keeps_flattenStatement : ∀ (s : Statement) (loops : List Nat), s.exits .own loops ⊆ exits →
    ∀ tail, (flattenStatement loops.length tail s).Keeps loops exits (s.exits .own loops)
      (s.exits .test loops)
  | .declare _ _ _ value _, loops, hsub, tail | .assign _ _ value, loops, hsub, tail
  | .ret _ value, loops, hsub, tail => by
    rw [Statement.exits] at hsub
    rw [flattenStatement, Statement.exits, Statement.exits]
    refine keeps_emit_hoist (keeps_conditionals value loops hsub) fun e => ?_
    rw [Statement.exits]
  | .eval token value, loops, hsub, tail => by
    rw [Statement.exits] at hsub
    rw [Statement.exits, Statement.exits]
    exact keeps_eval (keeps_conditionals value loops hsub) token tail
  | .cond c, loops, hsub, tail => by
    rw [Statement.exits] at hsub
    rw [flattenStatement, Statement.exits, Statement.exits]
    exact keeps_flattenConditional c loops hsub tail
  | .loop token condition body, loops, hsub, tail => by
    rw [Statement.exits, ExitRule.own, List.nil_append, List.append_subset] at hsub
    have hcondition := keeps_conditionals condition (token :: loops) hsub.1
    have hbody := keeps_flattenBlock body (token :: loops) hsub.2 .drop
    rw [flattenStatement, Statement.exits, Statement.exits, ExitRule.own, ExitRule.test,
      List.nil_append]
    refine hbody.capture.before fun body' hb => ?_
    split
    · -- the condition moves into the body, in front of what was there
      refine (keeps_test hcondition).capture.before fun test ht => Exits.emit ?_
      rw [Statement.exits, ExitRule.own, Block.exits_append]
      exact (ht.append hb).congr (List.perm_append_comm.append_right _)
    · next hplain =>
      have hnone (rule : ExitRule) : Expr.exits rule (token :: loops) condition = [] :=
        Expr.exits_of_not_containsConditional (Bool.eq_false_iff.mpr hplain)
      refine Exits.emit ?_
      rw [Statement.exits, ExitRule.own, hnone, hnone]
      exact hb
  | .exit token amount, loops, hsub, tail => by
    rw [Statement.exits, ExitRule.own] at hsub ⊢
    rw [Statement.exits, ExitRule.test]
    exact keeps_exit (hsub (List.mem_singleton_self _)) tail
  | .next token, loops, _, tail => by
    rw [Statement.exits, Statement.exits]
    exact keeps_next token tail

theorem keeps_flattenBlock : ∀ (b : List Statement) (loops : List Nat),
    Block.exits .own loops b ⊆ exits → ∀ tail, (flattenBlock loops.length tail b).Keeps loops exits
      (Block.exits .own loops b) (Block.exits .test loops b)
  | [], loops, _, tail => by
    rw [flattenBlock, Block.exits_nil, Block.exits_nil]
    exact Exits.pure .nil
  | s :: rest, loops, hsub, tail => by
    rw [Block.exits_cons, List.append_subset] at hsub
    rw [flattenBlock, Block.exits_cons, Block.exits_cons]
    exact (keeps_flattenStatement s loops hsub.1 _).bind fun es _ hs =>
      (keeps_flattenBlock rest loops hsub.2 tail).weaken fun more _ hr => hs.append hr

end

mutual

theorem exits_markStatement : ∀ (s : Statement) (loops : List Nat),
    (markStatement s).1.exits .own loops = s.exits .own loops
  | .cond c, loops => by
    rw [markStatement, Statement.exits, Statement.exits]
    exact exits_markConditional c loops
  | .loop token condition body, loops => by
    rw [markStatement, Statement.exits, Statement.exits, exits_markBlock body, ExitRule.own,
      ExitRule.own]
  | .declare .., _ | .assign .., _ | .eval .., _ | .ret .., _ | .exit .., _ | .next .., _ => rfl

theorem exits_markConditional : ∀ (c : Conditional) (loops : List Nat),
    (markConditional c).1.exits .own loops = c.exits .own loops
  | .mk _ condition onTrue onFalse _ _, loops => by
    rw [markConditional, Conditional.exits, Conditional.exits, exits_markBlock onTrue,
      exits_markBlock onFalse]

theorem exits_markBlock : ∀ (b : List Statement) (loops : List Nat),
    Block.exits .own loops (markBlock b).1 = Block.exits .own loops b
  | [], _ => by rw [markBlock]
  | s :: rest, loops => by
    rw [markBlock, Block.exits_cons, Block.exits_cons, exits_markStatement s, exits_markBlock rest]

end

/-- A function is flattened with its exits, whether it is then accepted or not. -/
theorem exits_flattenFunction (f : Function) :
    (flattenFunction f).Exits [] (Block.loopExits [] f.body) fun _ g =>
      KeepsExits (Block.loopExits [] f.body) (Block.loopTests [] f.body)
        (Block.loopExits [] g.body) := by
  have hbody := keeps_flattenBlock f.body [] (List.Subset.refl _)
    (if f.returnType.isVoid then .drop else .give)
  refine hbody.capture.before fun body hb => ?_
  have hmarked : Block.loopExits [] (markBlock body).1 = Block.loopExits [] body :=
    exits_markBlock body []
  rw [← hmarked] at hb
  rcases hm : markBlock body with ⟨marked, returns⟩
  rw [hm] at hb
  dsimp only
  split
  · exact Exits.pure hb
  · exact Exits.fail nofun

/-- **Exits of loops are checked and kept.** In a function that is accepted, every exit leaves at
least one and at most as many loops as there are around it, and every `next` is inside a loop. Its
exits are those of the source, in the same order and inside the same loops, and beside them one for
each condition that a loop has to test in its body. A function with an exit that has no such loops
is refused, wherever the exit stands, and a fault about the amount of an exit is about an exit of
the source with this amount, inside this number of loops, which are too few. -/
theorem flattenFunction_loopExits (f : Function) (m : Nat) :
    (∀ g, ((flattenFunction f).run m).result = .ok g →
      (∀ x ∈ Block.loopExits [] g.body, x.IsBound) ∧
      (Block.loopExits [] f.body).Sublist (Block.loopExits [] g.body) ∧
      (Block.loopExits [] g.body).Perm
        (Block.loopExits [] f.body ++ Block.loopTests [] f.body)) ∧
    ((∃ x ∈ Block.loopExits [] f.body, ¬ x.IsBound) →
      ∃ fault, ((flattenFunction f).run m).result = .error fault) ∧
    ∀ token amount depth,
      ((flattenFunction f).run m).result = .error ⟨token, .invalidBreak amount depth⟩ →
      ∃ loops, ⟨token, some amount, loops⟩ ∈ Block.loopExits [] f.body ∧ loops.length = depth ∧
        (amount = 0 ∨ depth < amount) := by
  have hf := exits_flattenFunction f m
  refine ⟨fun g hg => ?_, fun hbad => ?_, fun token amount depth hfault => ?_⟩
  · rw [hg] at hf
    exact ⟨hf.bound, hf.sublist, hf.perm⟩
  · obtain ⟨x, hx, hunbound⟩ := hbad
    cases hr : ((flattenFunction f).run m).result with
    | error fault => exact ⟨fault, rfl⟩
    | ok g =>
      rw [hr] at hf
      exact absurd (hf.bound x (hf.sublist.subset hx)) hunbound
  · rw [hfault] at hf
    exact hf amount depth rfl

/-- `while { while if a { break *2 } else { b } { continue } }`: the exit is inside both loops, also
where the condition has moved into the body of the second one. Without the first loop it is refused. -/
theorem flattenFunction_loopExits_inCondition :
    let inner : Statement := .loop 2
      [.cond (.ofBlocks 3 [.var 4 ["a"] none] [.exit 5 2] [.eval 6 [.var 6 ["b"] none]])] [.next 7]
    let f : Function :=
      { token := 0, name := "f", isPublic := false, params := [], returnType := .void, index := 0,
        uniqueName := none, locals := [], body := [.loop 1 [.bool 1 true] [inner]] }
    let refused : Function := { f with body := [inner] }
    (∃ g, ((flattenFunction f).run 0).result = .ok g ∧
      (∀ x ∈ Block.loopExits [] g.body, x.IsBound) ∧
      [⟨5, some 2, [2, 1]⟩, ⟨7, none, [2, 1]⟩].Sublist (Block.loopExits [] g.body) ∧
      (Block.loopExits [] g.body).Perm
        [⟨5, some 2, [2, 1]⟩, ⟨7, none, [2, 1]⟩, ⟨2, some 1, [2, 1]⟩]) ∧
    (∃ x ∈ Block.loopExits [] refused.body, ¬ x.IsBound) ∧
    (∃ fault, ((flattenFunction refused).run 0).result = .error fault) ∧
    ((flattenFunction refused).run 0).result = .error ⟨5, .invalidBreak 2 1⟩ ∧
    ∃ loops, ⟨5, some 2, loops⟩ ∈ Block.loopExits [] refused.body ∧ loops.length = 1 ∧
      (2 = 0 ∨ 1 < 2) := by
  intro inner f refused
  obtain ⟨haccepted, -, -⟩ := flattenFunction_loopExits f 0
  obtain ⟨-, hrefused, hblamed⟩ := flattenFunction_loopExits refused 0
  have hbad : ∃ x ∈ Block.loopExits [] refused.body, ¬ x.IsBound :=
    ⟨⟨5, some 2, [2]⟩, by decide, by decide⟩
  exact ⟨⟨_, rfl, haccepted _ rfl⟩, hbad, hrefused hbad, rfl, hblamed 5 2 1 rfl⟩

end ControlFlow

end FrontEnd
