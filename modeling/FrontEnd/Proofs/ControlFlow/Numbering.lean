import FrontEnd.ControlFlow.Normalize

/-!
# Numbering temporaries

What a computation that succeeds has done, step by step. The number of temporaries
handed out never falls, whatever is written and whether there is a fault or not; so a
temporary that is handed out is never one that is already in use.
-/

namespace FrontEnd.ControlFlow

open Emit

namespace Emit

variable {α β : Type}

/-- A step succeeds if the computation does, and the rest starts where it ends. -/
theorem run_bind_eq_ok {x : Emit α} {f : α → Emit β} {b : β} {block : Block} {temps last : Nat}
    (h : (x >>= f).run temps = ⟨.ok b, block, last⟩) :
    ∃ a first mid more, x.run temps = ⟨.ok a, first, mid⟩ ∧
      (f a).run mid = ⟨.ok b, more, last⟩ ∧ block = first ++ more := by
  rcases hx : x.run temps with ⟨fault | a, first, mid⟩
  · rw [run_bind_error hx] at h
    cases h
  · rw [run_bind_ok hx] at h
    rcases hf : (f a).run mid with ⟨result, more, last'⟩
    rw [hf] at h
    cases h
    exact ⟨a, first, mid, more, rfl, hf, rfl⟩

theorem run_capture_ok {x : Emit Unit} {block : Block} {temps last : Nat}
    (h : x.run temps = ⟨.ok (), block, last⟩) :
    (capture x).run temps = ⟨.ok block, [], last⟩ := by
  change x temps = _ at h
  rw [run, capture, h]

theorem run_capture_error {x : Emit Unit} {fault : Fault} {block : Block} {temps last : Nat}
    (h : x.run temps = ⟨.error fault, block, last⟩) :
    (capture x).run temps = ⟨.error fault, [], last⟩ := by
  change x temps = _ at h
  rw [run, capture, h]

/-- A block that is captured is what would have been written, and nothing is written. -/
theorem run_capture_eq_ok {x : Emit Unit} {b block : Block} {temps last : Nat}
    (h : (capture x).run temps = ⟨.ok b, block, last⟩) :
    x.run temps = ⟨.ok (), b, last⟩ ∧ block = [] := by
  rcases hx : x.run temps with ⟨fault | a, first, mid⟩
  · rw [run_capture_error hx] at h
    cases h
  · rw [run_capture_ok hx] at h
    cases h
    exact ⟨rfl, rfl⟩

/-- All that is written is written after a block has been captured. -/
theorem run_capture_bind_eq_ok {x : Emit Unit} {f : Block → Emit β} {b : β} {block : Block}
    {temps last : Nat} (h : (capture x >>= f).run temps = ⟨.ok b, block, last⟩) :
    ∃ captured mid, x.run temps = ⟨.ok (), captured, mid⟩ ∧
      (f captured).run mid = ⟨.ok b, block, last⟩ := by
  obtain ⟨captured, first, mid, more, hx, hf, rfl⟩ := run_bind_eq_ok h
  obtain ⟨hx', rfl⟩ := run_capture_eq_ok hx
  exact ⟨captured, mid, hx', hf⟩

/-- No temporary is handed out twice. -/
def Grows (x : Emit α) : Prop := ∀ temps, temps ≤ (x.run temps).temps

namespace Grows

theorem pure (a : α) : Grows (Pure.pure a : Emit α) := fun _ => Nat.le_refl _

theorem fail (fault : Fault) : Grows (Emit.fail fault : Emit α) := fun _ => Nat.le_refl _

theorem emit (s : Statement) : Grows (Emit.emit s) := fun _ => Nat.le_refl _

theorem fresh : Grows Emit.fresh := fun _ => Nat.le_succ _

theorem bind {x : Emit α} {f : α → Emit β} (h : Grows x) (hf : ∀ a, Grows (f a)) :
    Grows (x >>= f) := by
  intro temps
  have hx := h temps
  rcases hr : x.run temps with ⟨fault | a, block, mid⟩
  · rw [hr] at hx
    rw [run_bind_error hr]
    exact hx
  · rw [hr] at hx
    rw [run_bind_ok hr]
    exact Nat.le_trans hx (hf a mid)

theorem capture {x : Emit Unit} (h : Grows x) : Grows (Emit.capture x) := by
  intro temps
  have hx := h temps
  rcases hr : x.run temps with ⟨fault | a, block, mid⟩
  · rw [hr] at hx
    rw [run_capture_error hr]
    exact hx
  · rw [hr] at hx
    rw [run_capture_ok hr]
    exact hx

/-- The number after a run is at least the one before it. -/
theorem le {x : Emit α} (h : Grows x) {result : Except Fault α} {block : Block} {temps last : Nat}
    (hr : x.run temps = ⟨result, block, last⟩) : temps ≤ last := by
  have hx := h temps
  rwa [hr] at hx

end Grows

end Emit

theorem grows_reserve (c : Conditional) : Grows (reserve c) := by
  refine Grows.fresh.bind fun temp => (Grows.emit _).bind fun _ => ?_
  split
  · exact Grows.fail _
  · exact Grows.pure _

/-- An operand is parked where it is, if that is safe, and in a temporary otherwise. -/
theorem park_cases (token : Nat) (operand : Expr) :
    (∃ n, operand = [n] ∧ (n.isLiteral || isTemporary n) = true ∧
      park token operand = return operand) ∨
    park token operand = (do
      let temp ← fresh
      emit (.declare token temp none operand none)
      return [.var token [temp] none]) := by
  unfold park
  split
  · next n =>
    split
    · next h => exact .inl ⟨n, rfl, h, rfl⟩
    · exact .inr rfl
  · exact .inr rfl

theorem grows_park (token : Nat) (operand : Expr) : Grows (park token operand) := by
  rcases park_cases token operand with ⟨n, -, -, hp⟩ | hp
  · rw [hp]
    exact Grows.pure _
  · rw [hp]
    exact Grows.fresh.bind fun temp => (Grows.emit _).bind fun _ => Grows.pure _

theorem grows_spill (token : Nat) (operands : List Expr) : Grows (spill token operands) := by
  induction operands with
  | nil => exact Grows.pure _
  | cons operand below ih =>
    exact ih.bind fun _ => (grows_park token operand).bind fun _ => Grows.pure _

theorem nodesOnStack_cons (operand : Expr) (below : List Expr) :
    nodesOnStack (operand :: below) = nodesOnStack below ++ operand := by
  simp [nodesOnStack]

/-- A node is put after all that is on the stack. -/
theorem nodesOnStack_pushNode (operands : List Expr) (n : Node) :
    nodesOnStack (pushNode operands n) = nodesOnStack operands ++ [n] := by
  rw [pushNode, nodesOnStack_cons, ← List.append_assoc]
  congr 1
  rw [nodesOnStack, nodesOnStack, nodesOnStack, ← List.flatten_append, ← List.reverse_append,
    List.take_append_drop]

/-- A node that is no conditional takes its operands off the stack. -/
theorem hoistFrom_cons {n : Node} (h : n.isConditional = false) (depth : Nat) (operands : List Expr)
    (rest : Expr) :
    hoistFrom depth operands (n :: rest) = hoistFrom depth (pushNode operands n) rest := by
  cases n with
  | cond c => cases h
  | _ => rw [hoistFrom]; simp

/-- An expression whose value is used is hoisted in front of its statement. -/
theorem flattenStatement_eval {tail : Tail} {value : Expr}
    (h : ∀ c, tail = .drop → value = [.cond c] → False) (depth token : Nat) :
    flattenStatement depth tail (.eval token value) =
      (do emit (tail.statement token (← hoistFrom depth [] value))) := by
  rw [flattenStatement]
  exact h

theorem exists_cond_of_isConditional {n : Node} (h : n.isConditional = true) :
    ∃ c, n = .cond c := by
  cases n with
  | cond c => exact ⟨c, rfl⟩
  | _ => cases h

theorem grows_hoistFrom {depth : Nat} {nodes : Expr}
    (h : ∀ c, .cond c ∈ nodes → ∀ tail, Grows (flattenConditional depth tail c))
    (operands : List Expr) : Grows (hoistFrom depth operands nodes) := by
  induction nodes generalizing operands with
  | nil =>
    rw [hoistFrom]
    exact Grows.pure _
  | cons n rest ih =>
    have hr := ih fun c hc => h c (List.mem_cons_of_mem _ hc)
    cases hn : n.isConditional with
    | false =>
      rw [hoistFrom_cons hn]
      exact hr _
    | true =>
      obtain ⟨c, rfl⟩ := exists_cond_of_isConditional hn
      rw [hoistFrom]
      exact (grows_spill _ _).bind fun _ => (grows_reserve c).bind fun _ =>
        (h c List.mem_cons_self _).bind fun _ => hr _

theorem grows_eval {depth : Nat} {value : Expr}
    (h : ∀ c, .cond c ∈ value → ∀ tail, Grows (flattenConditional depth tail c)) (token : Nat)
    (tail : Tail) : Grows (flattenStatement depth tail (.eval token value)) := by
  by_cases hc : ∃ c, tail = .drop ∧ value = [.cond c]
  · obtain ⟨c, rfl, rfl⟩ := hc
    rw [flattenStatement]
    exact h c List.mem_cons_self _
  · rw [flattenStatement_eval fun c ht hv => hc ⟨c, ht, hv⟩]
    exact (grows_hoistFrom h []).bind fun _ => Grows.emit _

mutual

theorem grows_conditionals (depth : Nat) :
    ∀ (nodes : List Node) (c : Conditional), .cond c ∈ nodes →
      ∀ tail, Grows (flattenConditional depth tail c)
  | .cond c :: rest, c', hc, tail => by
    rcases List.mem_cons.mp hc with heq | hr
    · cases heq
      exact grows_flattenConditional depth c tail
    · exact grows_conditionals depth rest c' hr tail
  | .int .. :: rest, c', hc, tail | .float .. :: rest, c', hc, tail
  | .bool .. :: rest, c', hc, tail | .var .. :: rest, c', hc, tail
  | .op .. :: rest, c', hc, tail | .call .. :: rest, c', hc, tail =>
    grows_conditionals depth rest c' (by simpa using hc) tail

theorem grows_flattenConditional (depth : Nat) :
    ∀ (c : Conditional) (tail : Tail), Grows (flattenConditional depth tail c)
  | .mk _ condition onTrue onFalse _ _, tail => by
    rw [flattenConditional]
    exact (grows_hoistFrom (grows_conditionals depth condition) []).bind fun _ =>
      (grows_flattenBlock depth onTrue tail).capture.bind fun _ =>
        (grows_flattenBlock depth onFalse tail).capture.bind fun _ => Grows.emit _

theorem grows_flattenStatement (depth : Nat) :
    ∀ (s : Statement) (tail : Tail), Grows (flattenStatement depth tail s)
  | .declare _ _ _ value _, tail | .assign _ _ value, tail | .ret _ value, tail => by
    rw [flattenStatement]
    exact (grows_hoistFrom (grows_conditionals depth value) []).bind fun _ => Grows.emit _
  | .eval token value, tail => grows_eval (grows_conditionals depth value) token tail
  | .cond c, tail => by
    rw [flattenStatement]
    exact grows_flattenConditional depth c tail
  | .loop _ condition body, tail => by
    rw [flattenStatement]
    refine (grows_flattenBlock (depth + 1) body .drop).capture.bind fun _ => ?_
    split
    · exact ((grows_hoistFrom (grows_conditionals (depth + 1) condition) []).bind
        fun _ => Grows.emit _).capture.bind fun _ => Grows.emit _
    · exact Grows.emit _
  | .exit _ _, tail | .next _, tail => by
    rw [flattenStatement]
    split
    · exact Grows.fail _
    · exact Grows.emit _

theorem grows_flattenBlock (depth : Nat) :
    ∀ (b : List Statement) (tail : Tail), Grows (flattenBlock depth tail b)
  | [], tail => by
    rw [flattenBlock]
    exact Grows.pure _
  | s :: rest, tail => by
    rw [flattenBlock]
    exact (grows_flattenStatement depth s _).bind fun _ => grows_flattenBlock depth rest tail

end

/-- The number of temporaries does not fall while an expression is hoisted. -/
theorem grows_hoist (depth : Nat) (operands : List Expr) (nodes : Expr) :
    Grows (hoistFrom depth operands nodes) :=
  grows_hoistFrom (grows_conditionals depth nodes) operands

end FrontEnd.ControlFlow
