import FrontEnd.Proofs.ControlFlow.Items
import FrontEnd.Proofs.ShortCircuit.Relabeling

/-!
# Flattening does not look at labels

What is written when control flow is flattened depends on the labels that a tree has, and
on the number of temporaries handed out before, only by having other labels itself. So
whether a function is accepted does not depend on what comes before it in its module, and
the temporaries of its flat body differ only in their numbers.
-/

namespace FrontEnd

/-- Names are changed so that every temporary gets a number that is higher by `d`, and no other
variable becomes one. -/
structure Relabeling.Shifts (l : Relabeling) (d : Nat) : Prop where
  temporary : ∀ k, l.name (ControlFlow.Emit.temporaryName k) =
    ControlFlow.Emit.temporaryName (k + d)
  isTemporary : ∀ name, (ControlFlow.temporary? [l.name name]).isSome =
    (ControlFlow.temporary? [name]).isSome

/-- The fault at another token. -/
def Fault.relabel (l : Relabeling) (f : Fault) : Fault := ⟨l.token f.token, f.cause⟩

/-- The function at other tokens, and with other labels in its body. -/
def Function.relabel (l : Relabeling) (f : Function) : Function :=
  { f with
    token := l.token f.token, params := f.params.map fun p => { p with token := l.token p.token },
    body := Block.relabel l f.body }

namespace ControlFlow

open Emit

variable {l : Relabeling} {d : Nat}

/-- The outcome with other labels, after `d` further temporaries. -/
def Emission.relabel {α β : Type} (l : Relabeling) (d : Nat) (f : α → β) (e : Emission α) :
    Emission β where
  result := match e.result with
    | .ok a => .ok (f a)
    | .error fault => .error (fault.relabel l)
  block := Block.relabel l e.block
  temps := e.temps + d

/-- After `d` further temporaries the second computation does what the first one does, but for the
labels. `f` changes those in a result. -/
def Emit.Relabels (l : Relabeling) (d : Nat) {α β : Type} (f : α → β) (x : Emit α) (y : Emit β) :
    Prop :=
  ∀ k, y.run (k + d) = (x.run k).relabel l d f

namespace Emit.Relabels

variable {α β γ δ : Type} {f : α → β} {g : γ → δ}

theorem pure (a : α) : Relabels l d f (Pure.pure a) (Pure.pure (f a)) := by
  intro k
  simp [Emission.relabel]

theorem fail (fault : Fault) : Relabels l d f (Emit.fail fault) (Emit.fail (fault.relabel l)) := by
  intro k
  simp [Emission.relabel]

theorem emit (s : Statement) : Relabels l d id (Emit.emit s) (Emit.emit (s.relabel l)) := by
  intro k
  simp [Emission.relabel]

theorem fresh (h : l.Shifts d) : Relabels l d l.name Emit.fresh Emit.fresh := by
  intro k
  simp only [run_fresh, Emission.relabel, Block.relabel_nil, h.temporary]
  rw [Nat.add_right_comm]

theorem bind {x : Emit α} {y : Emit β} {F : α → Emit γ} {G : β → Emit δ} (h : Relabels l d f x y)
    (hF : ∀ a, Relabels l d g (F a) (G (f a))) : Relabels l d g (x >>= F) (y >>= G) := by
  intro k
  have hy := h k
  rcases hx : x.run k with ⟨fault | a, block, mid⟩
  · rw [hx] at hy
    rw [run_bind_error hx, run_bind_error hy]
    rfl
  · rw [hx] at hy
    rw [run_bind_ok hx, run_bind_ok hy, hF a mid]
    simp only [Emission.relabel, Block.relabel_append]

theorem capture {x y : Emit Unit} (h : Relabels l d id x y) :
    Relabels l d (Block.relabel l) (Emit.capture x) (Emit.capture y) := by
  intro k
  have hy := h k
  rcases hx : x.run k with ⟨fault | a, block, mid⟩
  · rw [hx] at hy
    rw [run_capture_error hx, run_capture_error hy]
    simp [Emission.relabel]
  · rw [hx] at hy
    rw [run_capture_ok hx, run_capture_ok hy]
    simp [Emission.relabel]

end Emit.Relabels

/-! ## Gaps -/

@[simp]
theorem token_relabel (c : Conditional) : (c.relabel l).token = l.token c.token := by
  cases c
  rw [Conditional.relabel]
  rfl

mutual

theorem relabel_statementGap? (token : Nat) : (s : Statement) →
    statementGap? (l.token token) (s.relabel l) = (statementGap? token s).map l.token
  | .cond (.mk inner _ onTrue onFalse _ _) => by
    rw [Statement.relabel, Conditional.relabel, statementGap?, statementGap?,
      Block.isEmpty_relabel, relabel_blockGap? inner onTrue, relabel_blockGap? inner onFalse]
    split
    · rfl
    · cases blockGap? inner onTrue <;> rfl
  | .eval .. | .ret .. | .exit .. | .next .. | .declare .. | .assign .. | .loop .. => by
    rw [Statement.relabel, statementGap?, statementGap?]
    rfl

theorem relabel_blockGap? (token : Nat) : (b : List Statement) →
    blockGap? (l.token token) (Block.relabel l b) = (blockGap? token b).map l.token
  | [] => by
    rw [Block.relabel, blockGap?, blockGap?]
    rfl
  | s :: rest => by
    rw [Block.relabel, blockGap?, blockGap?, Block.isEmpty_relabel,
      relabel_statementGap? token s, relabel_blockGap? token rest]
    split <;> rfl

end

/-- A conditional has the gap of the statement that it may be. -/
theorem conditionalGap?_eq (c : Conditional) : conditionalGap? c = statementGap? c.token (.cond c) := by
  cases c
  rw [statementGap?]
  rfl

theorem relabel_conditionalGap? (c : Conditional) :
    conditionalGap? (c.relabel l) = (conditionalGap? c).map l.token := by
  rw [conditionalGap?_eq, conditionalGap?_eq, ← relabel_statementGap?, Statement.relabel,
    token_relabel]

/-! ## Operands -/

theorem relabels_reserve (h : l.Shifts d) (c : Conditional) :
    Relabels l d l.name (reserve c) (reserve (c.relabel l)) := by
  refine (Relabels.fresh h).bind fun temp => ?_
  have hdeclare := Relabels.emit (l := l) (d := d) (.declare c.token temp none [] none)
  rw [Statement.relabel, Expr.relabel_nil, ← token_relabel] at hdeclare
  refine hdeclare.bind fun _ => ?_
  rw [relabel_conditionalGap?]
  cases conditionalGap? c with
  | none => exact Relabels.pure temp
  | some gap => exact Relabels.fail _

theorem isTemporary_relabel (h : l.Shifts d) (n : Node) :
    isTemporary (n.relabel l) = isTemporary n := by
  cases n with
  | var token path binding =>
    rw [Node.relabel, isTemporary_eq, isTemporary_eq]
    match path with
    | [] | _ :: _ :: _ => rfl
    | [name] => exact h.isTemporary name
  | _ => rw [Node.relabel]; rfl

theorem park_of_safe {n : Node} (h : (n.isLiteral || isTemporary n) = true) (token : Nat) :
    park token [n] = return [n] := by
  unfold park
  simp [h]

theorem park_of_not_safe {operand : Expr}
    (h : ∀ n, operand = [n] → (n.isLiteral || isTemporary n) = false) (token : Nat) :
    park token operand = (do
      let temp ← fresh
      emit (.declare token temp none operand none)
      return [.var token [temp] none]) := by
  rcases park_cases token operand with ⟨n, rfl, hn, -⟩ | hp
  · cases hn.symm.trans (h n rfl)
  · exact hp

theorem relabels_park (h : l.Shifts d) (token : Nat) (operand : Expr) :
    Relabels l d (Expr.relabel l) (park token operand)
      (park (l.token token) (Expr.relabel l operand)) := by
  by_cases hsafe : ∃ n, operand = [n] ∧ (n.isLiteral || isTemporary n) = true
  · obtain ⟨n, rfl, hn⟩ := hsafe
    have hn' : ((n.relabel l).isLiteral || isTemporary (n.relabel l)) = true := by
      rwa [Node.isLiteral_relabel, isTemporary_relabel h]
    rw [Expr.relabel_cons, Expr.relabel_nil, park_of_safe hn, park_of_safe hn']
    have hpure := Relabels.pure (l := l) (d := d) (f := Expr.relabel l) [n]
    rwa [Expr.relabel_cons, Expr.relabel_nil] at hpure
  · have hnot : ∀ n, operand = [n] → (n.isLiteral || isTemporary n) = false :=
      fun n hn => Bool.eq_false_iff.mpr fun hs => hsafe ⟨n, hn, hs⟩
    have hnot' : ∀ n, Expr.relabel l operand = [n] → (n.isLiteral || isTemporary n) = false := by
      intro n hn
      rw [Expr.relabel_eq_map, List.map_eq_singleton_iff] at hn
      obtain ⟨m, rfl, rfl⟩ := hn
      rw [Node.isLiteral_relabel, isTemporary_relabel h]
      exact hnot m rfl
    rw [park_of_not_safe hnot, park_of_not_safe hnot']
    refine (Relabels.fresh h).bind fun temp => ?_
    have hdeclare := Relabels.emit (l := l) (d := d) (.declare token temp none operand none)
    rw [Statement.relabel] at hdeclare
    refine hdeclare.bind fun _ => ?_
    have hpure := Relabels.pure (l := l) (d := d) (f := Expr.relabel l)
      [.var token [temp] none]
    rwa [Expr.relabel_cons, Expr.relabel_nil, Node.relabel] at hpure

theorem relabels_spill (h : l.Shifts d) (token : Nat) (operands : List Expr) :
    Relabels l d (List.map (Expr.relabel l)) (spill token operands)
      (spill (l.token token) (operands.map (Expr.relabel l))) := by
  induction operands with
  | nil => exact Relabels.pure []
  | cons operand below ih =>
    exact ih.bind fun below' => (relabels_park h token operand).bind fun operand' =>
      Relabels.pure (operand' :: below')

theorem relabel_nodesOnStack (operands : List Expr) :
    nodesOnStack (operands.map (Expr.relabel l)) = Expr.relabel l (nodesOnStack operands) := by
  unfold nodesOnStack
  rw [Expr.relabel_eq_map, List.map_flatten, ← List.map_reverse]
  congr 2
  funext e
  exact Expr.relabel_eq_map l e

theorem relabel_pushNode (operands : List Expr) (n : Node) :
    pushNode (operands.map (Expr.relabel l)) (n.relabel l) =
      (pushNode operands n).map (Expr.relabel l) := by
  unfold pushNode
  rw [Node.operands_relabel, ← List.map_take, ← List.map_drop, relabel_nodesOnStack, List.map_cons,
    Expr.relabel_append, Expr.relabel_cons, Expr.relabel_nil]

theorem relabel_exitUnless (token : Nat) (condition : Expr) :
    exitUnless (l.token token) (Expr.relabel l condition) =
      (exitUnless token condition).relabel l := by
  simp [exitUnless, Conditional.ofBlocks, Statement.relabel, Conditional.relabel, Node.relabel]

/-! ## Statements -/

/-- The tail whose temporary has another name. -/
def Tail.relabel (l : Relabeling) : Tail → Tail
  | .store temp => .store (l.name temp)
  | tail => tail

theorem relabel_tailStatement (tail : Tail) (token : Nat) (value : Expr) :
    (tail.relabel l).statement (l.token token) (Expr.relabel l value) =
      (tail.statement token value).relabel l := by
  cases tail with
  | drop => simp only [Tail.relabel, Tail.statement, Statement.relabel]
  | give => simp only [Tail.relabel, Tail.statement, Statement.relabel]
  | store temp =>
    simp only [Tail.relabel, Tail.statement, Statement.relabel]
    rfl

theorem relabel_lastTail (rest : Block) (tail : Tail) :
    (if (Block.relabel l rest).isEmpty then tail.relabel l else .drop) =
      (if rest.isEmpty then tail else .drop).relabel l := by
  rw [Block.isEmpty_relabel]
  split <;> rfl

theorem relabels_hoistFrom (h : l.Shifts d) {depth : Nat} {nodes : Expr}
    (hc : ∀ c, .cond c ∈ nodes → ∀ tail, Relabels l d id (flattenConditional depth tail c)
      (flattenConditional depth (tail.relabel l) (c.relabel l)))
    (operands : List Expr) :
    Relabels l d (Expr.relabel l) (hoistFrom depth operands nodes)
      (hoistFrom depth (operands.map (Expr.relabel l)) (Expr.relabel l nodes)) := by
  induction nodes generalizing operands with
  | nil =>
    rw [Expr.relabel_nil, hoistFrom, hoistFrom, relabel_nodesOnStack]
    exact Relabels.pure _
  | cons n rest ih =>
    have hr := ih fun c hm => hc c (List.mem_cons_of_mem _ hm)
    rw [Expr.relabel_cons]
    cases hn : n.isConditional with
    | false =>
      have hn' : (n.relabel l).isConditional = false := by
        cases n with
        | cond c => cases hn
        | _ => rw [Node.relabel]; rfl
      rw [hoistFrom_cons hn, hoistFrom_cons hn', relabel_pushNode]
      exact hr (pushNode operands n)
    | true =>
      obtain ⟨c, rfl⟩ := exists_cond_of_isConditional hn
      rw [Node.relabel, hoistFrom, hoistFrom, token_relabel]
      refine (relabels_spill h c.token operands).bind fun spilled =>
        (relabels_reserve h c).bind fun temp =>
          (hc c List.mem_cons_self (.store temp)).bind fun _ => ?_
      have hrest := hr ([.var c.token [temp] none] :: spilled)
      rwa [List.map_cons, Expr.relabel_cons, Expr.relabel_nil, Node.relabel] at hrest

theorem relabels_eval (h : l.Shifts d) {depth : Nat} {value : Expr}
    (hc : ∀ c, .cond c ∈ value → ∀ tail, Relabels l d id (flattenConditional depth tail c)
      (flattenConditional depth (tail.relabel l) (c.relabel l)))
    (token : Nat) (tail : Tail) :
    Relabels l d id (flattenStatement depth tail (.eval token value))
      (flattenStatement depth (tail.relabel l) (.eval (l.token token) (Expr.relabel l value))) := by
  by_cases hdrop : ∃ c, tail = .drop ∧ value = [.cond c]
  · obtain ⟨c, rfl, rfl⟩ := hdrop
    rw [Expr.relabel_cons, Expr.relabel_nil, Node.relabel, Tail.relabel, flattenStatement,
      flattenStatement]
    · exact hc c List.mem_cons_self .drop
    · nofun
  · have hdrop' : ∀ c, tail.relabel l = .drop → Expr.relabel l value = [.cond c] → False := by
      intro c ht hv
      rw [Expr.relabel_eq_map, List.map_eq_singleton_iff] at hv
      obtain ⟨n, rfl, hn⟩ := hv
      cases tail with
      | drop =>
        cases n with
        | cond c' => exact hdrop ⟨c', rfl, rfl⟩
        | _ => rw [Node.relabel] at hn; cases hn
      | store | give => cases ht
    rw [flattenStatement_eval fun c ht hv => hdrop ⟨c, ht, hv⟩, flattenStatement_eval hdrop']
    refine (relabels_hoistFrom h hc []).bind fun e => ?_
    rw [relabel_tailStatement]
    exact Relabels.emit _

mutual

theorem relabels_conditionals (h : l.Shifts d) (depth : Nat) :
    ∀ (nodes : List Node) (c : Conditional), .cond c ∈ nodes → ∀ tail,
      Relabels l d id (flattenConditional depth tail c)
        (flattenConditional depth (tail.relabel l) (c.relabel l))
  | .cond c :: rest, c', hc, tail => by
    rcases List.mem_cons.mp hc with heq | hr
    · cases heq
      exact relabels_flattenConditional h depth c tail
    · exact relabels_conditionals h depth rest c' hr tail
  | .int .. :: rest, c', hc, tail | .float .. :: rest, c', hc, tail
  | .bool .. :: rest, c', hc, tail | .var .. :: rest, c', hc, tail
  | .op .. :: rest, c', hc, tail | .call .. :: rest, c', hc, tail =>
    relabels_conditionals h depth rest c' (by simpa using hc) tail

theorem relabels_flattenConditional (h : l.Shifts d) (depth : Nat) :
    ∀ (c : Conditional) (tail : Tail), Relabels l d id (flattenConditional depth tail c)
      (flattenConditional depth (tail.relabel l) (c.relabel l))
  | .mk token condition onTrue onFalse trueReturns falseReturns, tail => by
    rw [Conditional.relabel, flattenConditional, flattenConditional]
    refine (relabels_hoistFrom h (relabels_conditionals h depth condition) []).bind
      fun condition' => (relabels_flattenBlock h depth onTrue tail).capture.bind
        fun onTrue' => (relabels_flattenBlock h depth onFalse tail).capture.bind fun onFalse' => ?_
    have hcond := Relabels.emit (l := l) (d := d)
      (.cond (.mk token condition' onTrue' onFalse' trueReturns falseReturns))
    rwa [Statement.relabel, Conditional.relabel] at hcond

theorem relabels_flattenStatement (h : l.Shifts d) (depth : Nat) :
    ∀ (s : Statement) (tail : Tail), Relabels l d id (flattenStatement depth tail s)
      (flattenStatement depth (tail.relabel l) (s.relabel l))
  | .declare token name type value slot, tail => by
    rw [Statement.relabel, flattenStatement, flattenStatement]
    refine (relabels_hoistFrom h (relabels_conditionals h depth value) []).bind fun value' => ?_
    have hdeclare := Relabels.emit (l := l) (d := d) (.declare token name type value' slot)
    rwa [Statement.relabel] at hdeclare
  | .assign token target value, tail => by
    rw [Statement.relabel, flattenStatement, flattenStatement]
    refine (relabels_hoistFrom h (relabels_conditionals h depth value) []).bind fun value' => ?_
    have hassign := Relabels.emit (l := l) (d := d) (.assign token target value')
    rwa [Statement.relabel] at hassign
  | .ret token value, tail => by
    rw [Statement.relabel, flattenStatement, flattenStatement]
    refine (relabels_hoistFrom h (relabels_conditionals h depth value) []).bind fun value' => ?_
    have hret := Relabels.emit (l := l) (d := d) (.ret token value')
    rwa [Statement.relabel] at hret
  | .eval token value, tail => by
    rw [Statement.relabel]
    exact relabels_eval h (relabels_conditionals h depth value) token tail
  | .cond c, tail => by
    rw [Statement.relabel, flattenStatement, flattenStatement]
    exact relabels_flattenConditional h depth c tail
  | .loop token condition body, tail => by
    rw [Statement.relabel, flattenStatement, flattenStatement, Expr.containsConditional_relabel]
    refine (relabels_flattenBlock h (depth + 1) body .drop).capture.bind fun body' => ?_
    split
    · have htest : Relabels l d id
          (do emit (exitUnless token (← hoistFrom (depth + 1) [] condition)))
          (do emit (exitUnless (l.token token)
            (← hoistFrom (depth + 1) [] (Expr.relabel l condition)))) := by
        refine (relabels_hoistFrom h (relabels_conditionals h (depth + 1) condition) []).bind
          fun condition' => ?_
        rw [relabel_exitUnless]
        exact Relabels.emit _
      refine htest.capture.bind fun test => ?_
      have hloop := Relabels.emit (l := l) (d := d)
        (.loop token [.bool token true] (test ++ body'))
      rwa [Statement.relabel, Block.relabel_append, Expr.relabel_cons, Expr.relabel_nil,
        Node.relabel] at hloop
    · have hloop := Relabels.emit (l := l) (d := d) (.loop token condition body')
      rwa [Statement.relabel] at hloop
  | .exit token amount, tail => by
    rw [Statement.relabel, flattenStatement, flattenStatement]
    split
    · exact Relabels.fail _
    · have hexit := Relabels.emit (l := l) (d := d) (.exit token amount)
      rwa [Statement.relabel] at hexit
  | .next token, tail => by
    rw [Statement.relabel, flattenStatement, flattenStatement]
    split
    · exact Relabels.fail _
    · have hnext := Relabels.emit (l := l) (d := d) (.next token)
      rwa [Statement.relabel] at hnext

theorem relabels_flattenBlock (h : l.Shifts d) (depth : Nat) :
    ∀ (b : List Statement) (tail : Tail), Relabels l d id (flattenBlock depth tail b)
      (flattenBlock depth (tail.relabel l) (Block.relabel l b))
  | [], tail => by
    rw [Block.relabel, flattenBlock, flattenBlock]
    exact Relabels.pure ()
  | s :: rest, tail => by
    rw [Block.relabel, flattenBlock, flattenBlock, relabel_lastTail]
    exact (relabels_flattenStatement h depth s _).bind fun _ =>
      relabels_flattenBlock h depth rest tail

end

/-! ## Functions -/

mutual

theorem relabel_markStatement : (s : Statement) →
    markStatement (s.relabel l) = ((markStatement s).1.relabel l, (markStatement s).2)
  | .cond c => by
    rw [Statement.relabel, markStatement, markStatement, relabel_markConditional c]
    simp only [Statement.relabel]
  | .loop _ condition body => by
    rw [Statement.relabel, markStatement, markStatement, relabel_markBlock body]
    simp only [Statement.relabel]
  | .declare .. | .assign .. | .eval .. | .ret .. | .exit .. | .next .. => by
    simp only [Statement.relabel, markStatement]

theorem relabel_markConditional : (c : Conditional) →
    markConditional (c.relabel l) = ((markConditional c).1.relabel l, (markConditional c).2)
  | .mk _ condition onTrue onFalse _ _ => by
    rw [Conditional.relabel, markConditional, markConditional, relabel_markBlock onTrue,
      relabel_markBlock onFalse]
    simp only [Conditional.relabel]

theorem relabel_markBlock : (b : List Statement) →
    markBlock (Block.relabel l b) = (Block.relabel l (markBlock b).1, (markBlock b).2)
  | [] => by simp only [Block.relabel, markBlock]
  | s :: rest => by
    rw [Block.relabel, markBlock, markBlock, relabel_markStatement s, relabel_markBlock rest]
    simp only [Block.relabel]

end

/-- A function with other labels is flattened in the same way, whatever temporaries have been handed
out before. -/
theorem relabels_flattenFunction (h : l.Shifts d) (f : Function) :
    Relabels l d (Function.relabel l) (flattenFunction f) (flattenFunction (f.relabel l)) := by
  unfold flattenFunction
  have htail : (if f.returnType.isVoid then Tail.drop else .give) =
      (if f.returnType.isVoid then Tail.drop else .give).relabel l := by
    split <;> rfl
  have hbody := relabels_flattenBlock h 0 f.body (if f.returnType.isVoid then .drop else .give)
  rw [← htail] at hbody
  refine hbody.capture.bind fun body => ?_
  rw [relabel_markBlock]
  have htype : (f.relabel l).returnType = f.returnType := rfl
  dsimp only
  rw [htype]
  split
  · exact Relabels.pure { f with body := (markBlock body).1 }
  · exact Relabels.fail _

/-! ## Other numbers for temporaries -/

/-- The temporaries get numbers that are higher by `d`, and the tokens are forgotten. -/
noncomputable def renumber (d : Nat) : Relabeling where
  token _ := 0
  name := Function.extend temporaryName (fun k => temporaryName (k + d)) id

theorem renumber_temporaryName (k : Nat) :
    (renumber d).name (temporaryName k) = temporaryName (k + d) := by
  unfold renumber
  exact temporaryName_injective.extend_apply (fun k => temporaryName (k + d)) id k

theorem renumber_of_not_mem {name : String} (h : ¬∃ k, temporaryName k = name) :
    (renumber d).name name = name := by
  unfold renumber
  exact Function.extend_apply' (fun k => temporaryName (k + d)) id name h

/-- A name that is no temporary stays. -/
theorem renumber_of_temporary? {name : String} (h : temporary? [name] = none) :
    (renumber d).name name = name := by
  refine renumber_of_not_mem ?_
  rintro ⟨k, rfl⟩
  rw [temporary?_temporaryName] at h
  cases h

theorem renumber_shifts (d : Nat) : (renumber d).Shifts d where
  temporary := renumber_temporaryName
  isTemporary name := by
    by_cases h : ∃ k, temporaryName k = name
    · obtain ⟨k, rfl⟩ := h
      rw [renumber_temporaryName, temporary?_temporaryName, temporary?_temporaryName]
      rfl
    · rw [renumber_of_not_mem h]

/-- Temporaries with different numbers stay different. -/
theorem renumber_injective (d : Nat) : Function.Injective (renumber d).name := by
  intro a b h
  by_cases ha : ∃ k, temporaryName k = a <;> by_cases hb : ∃ k, temporaryName k = b
  · obtain ⟨j, rfl⟩ := ha
    obtain ⟨k, rfl⟩ := hb
    rw [renumber_temporaryName, renumber_temporaryName] at h
    rw [Nat.add_right_cancel (temporaryName_injective h)]
  · obtain ⟨j, rfl⟩ := ha
    rw [renumber_temporaryName, renumber_of_not_mem hb] at h
    exact absurd ⟨j + d, h⟩ hb
  · obtain ⟨k, rfl⟩ := hb
    rw [renumber_temporaryName, renumber_of_not_mem ha] at h
    exact absurd ⟨k + d, h.symm⟩ ha
  · rwa [renumber_of_not_mem ha, renumber_of_not_mem hb] at h

theorem path_renumber {path : List String} (h : temporary? path = none) :
    (renumber d).path path = path := by
  match path with
  | [] | _ :: _ :: _ => rfl
  | [name] => exact congrArg ([·]) (renumber_of_temporary? h)

/-- Where there are no temporaries only the tokens are forgotten. -/
theorem relabel_renumber {f : Function} (h : IsSource (Block.paths f.body)) :
    f.relabel (renumber d) = f.relabel .forget := by
  have hbody : Block.relabel (renumber d) f.body = Block.relabel .forget f.body := by
    refine Block.relabel_congr ?_ f.body fun path hpath => ?_
    · rfl
    · rw [path_renumber (h path hpath), Relabeling.path_forget]
  rw [Function.relabel, Function.relabel, hbody]
  rfl

/-- What becomes of the body of a function depends neither on the tokens nor, but for the numbers of
temporaries, on how many of these have been handed out before. -/
theorem result_flattenFunction_forget {f : Function} (h : IsSource (Block.paths f.body))
    (k d : Nat) {g : Function} :
    ((flattenFunction (f.relabel .forget)).run (k + d)).result = .ok g ↔
      ∃ g', ((flattenFunction f).run k).result = .ok g' ∧ g = g'.relabel (renumber d) := by
  rw [← relabel_renumber h, relabels_flattenFunction (renumber_shifts d) f k, Emission.relabel]
  cases ((flattenFunction f).run k).result with
  | error fault => exact ⟨nofun, nofun⟩
  | ok g' =>
    simp only [Except.ok.injEq, exists_eq_left']
    exact eq_comm

end ControlFlow

end FrontEnd
