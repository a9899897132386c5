import FrontEnd.Proofs.ControlFlow.Functions
import FrontEnd.Proofs.ControlFlow.LoopExits
import FrontEnd.Proofs.Initialization.Paths
import FrontEnd.Proofs.Meaning.Endings

/-!
# Where functions return

Outside of all loops a block is marked as one that returns just if no path through it
goes on behind its end: there is no exit that could leave it otherwise. So a return is
missing just where such a path is. Inside a loop the mark says less. A block that is
marked does not go on behind its end, but an exit or a `next` may leave it before it
returns.
-/

namespace FrontEnd

mutual

/-- The conditionals among the statements of a statement. -/
def Statement.conditionals : Statement → List Conditional
  | .cond c => c.conditionals
  | .loop _ _ body => Block.conditionals body
  | .declare .. | .assign .. | .eval .. | .ret .. | .exit .. | .next .. => []

/-- A conditional and those among the statements of its blocks. -/
def Conditional.conditionals : Conditional → List Conditional
  | .mk token condition onTrue onFalse trueReturns falseReturns =>
    .mk token condition onTrue onFalse trueReturns falseReturns ::
      (Block.conditionals onTrue ++ Block.conditionals onFalse)

/-- The conditionals among the statements of a block, at any depth. -/
def Block.conditionals : List Statement → List Conditional
  | [] => []
  | s :: rest => s.conditionals ++ Block.conditionals rest

end

namespace ControlFlow

open Emit Meaning

/-! ## Marks -/

mutual

theorem returns_markStatement : ∀ s : Statement,
    (markStatement (markStatement s).1).2 = (markStatement s).2
  | .cond c => by
    rw [markStatement, markStatement]
    exact returns_markConditional c
  | .loop .. => by rw [markStatement, markStatement]
  | .declare .. | .assign .. | .eval .. | .ret .. | .exit .. | .next .. => rfl

theorem returns_markConditional : ∀ c : Conditional,
    (markConditional (markConditional c).1).2 = (markConditional c).2
  | .mk _ _ onTrue onFalse _ _ => by
    simp only [markConditional, returns_markBlock onTrue, returns_markBlock onFalse]

/-- A block that has been marked is marked as before. -/
theorem returns_markBlock : ∀ b : List Statement, (markBlock (markBlock b).1).2 = (markBlock b).2
  | [] => by rw [markBlock, markBlock]
  | s :: rest => by
    simp only [markBlock, returns_markStatement s, returns_markBlock rest]

end

/-- A conditional is marked with which of its blocks return. -/
def IsMarked (c : Conditional) : Prop :=
  c.trueReturns = (markBlock c.onTrue).2 ∧ c.falseReturns = (markBlock c.onFalse).2

mutual

theorem isMarked_markStatement : ∀ s : Statement,
    ∀ c ∈ (markStatement s).1.conditionals, IsMarked c
  | .cond c => by
    rw [markStatement, Statement.conditionals]
    exact isMarked_markConditional c
  | .loop _ _ body => by
    rw [markStatement, Statement.conditionals]
    exact isMarked_markBlock body
  | .declare .. | .assign .. | .eval .. | .ret .. | .exit .. | .next .. => by
    rw [markStatement] <;> first | exact List.forall_mem_nil _ | nofun

theorem isMarked_markConditional : ∀ c : Conditional,
    ∀ c' ∈ (markConditional c).1.conditionals, IsMarked c'
  | .mk _ _ onTrue onFalse _ _ => by
    rw [markConditional, Conditional.conditionals, List.forall_mem_cons, List.forall_mem_append]
    exact ⟨⟨(returns_markBlock onTrue).symm, (returns_markBlock onFalse).symm⟩,
      isMarked_markBlock onTrue, isMarked_markBlock onFalse⟩

theorem isMarked_markBlock : ∀ b : List Statement,
    ∀ c ∈ Block.conditionals (markBlock b).1, IsMarked c
  | [] => by
    rw [markBlock, Block.conditionals]
    exact List.forall_mem_nil _
  | s :: rest => by
    rw [markBlock, Block.conditionals, List.forall_mem_append]
    exact ⟨isMarked_markStatement s, isMarked_markBlock rest⟩

end

/-! ## Paths -/

mutual

theorem not_hasPath_of_returns_statement : ∀ s : Statement, (markStatement s).2 = true →
    ∀ es, ¬ s.HasPath es .goesOn
  | .ret .., _, _, h => by
    rw [Statement.HasPath] at h
    cases h.2
  | .cond c, hmark, es, h => by
    rw [Statement.HasPath] at h
    exact not_hasPath_of_returns_conditional c hmark es h
  | .declare .., h, _, _ | .assign .., h, _, _ | .eval .., h, _, _ | .loop .., h, _, _
  | .exit .., h, _, _ | .next .., h, _, _ => by
    cases h

theorem not_hasPath_of_returns_conditional : ∀ c : Conditional, (markConditional c).2 = true →
    ∀ es, ¬ c.HasPath es .goesOn
  | .mk _ _ onTrue onFalse _ _, hmark, es, h => by
    rw [markConditional, Bool.and_eq_true] at hmark
    rw [Conditional.HasPath] at h
    obtain ⟨es', -, htrue | hfalse⟩ := h
    · exact not_hasPath_of_returns_block onTrue hmark.1 es' htrue
    · exact not_hasPath_of_returns_block onFalse hmark.2 es' hfalse

/-- No path goes on behind a block that is marked as one that returns. -/
theorem not_hasPath_of_returns_block : ∀ b : List Statement, (markBlock b).2 = true →
    ∀ es, ¬ Block.HasPath b es .goesOn
  | [], hmark, _, _ => by
    rw [markBlock] at hmark
    cases hmark
  | s :: rest, hmark, es, h => by
    rw [markBlock, Bool.or_eq_true] at hmark
    rw [Block.HasPath] at h
    rcases h with ⟨-, hstops⟩ | ⟨-, hends⟩ | ⟨es₁, es₂, hs, hrest, -⟩
    · cases hstops
    · exact hends rfl
    · rcases hmark with hmark | hmark
      · exact not_hasPath_of_returns_statement s hmark es₁ hs
      · exact not_hasPath_of_returns_block rest hmark es₂ hrest

end

mutual

theorem exists_path_of_not_returns_statement : ∀ s : Statement,
    (∀ x ∈ s.exits .own [], x.IsBound) → (markStatement s).2 = false →
      ∃ es, s.HasPath es .goesOn
  | .declare .., _, _ | .assign .., _, _ | .eval .., _, _ => ⟨_, rfl, rfl⟩
  | .ret .., _, hmark => by cases hmark
  | .cond c, hbound, hmark => by
    rw [Statement.exits] at hbound
    obtain ⟨es, h⟩ := exists_path_of_not_returns_conditional c hbound hmark
    exact ⟨es, h⟩
  -- a loop may always be left before its first turn
  | .loop .., _, _ => ⟨_, .done⟩
  | .exit token amount, hbound, _ => by
    rw [Statement.exits, ExitRule.own, List.forall_mem_singleton] at hbound
    exact absurd (Nat.le_trans hbound.1 hbound.2) (Nat.not_succ_le_zero 0)
  | .next token, hbound, _ => by
    rw [Statement.exits, ExitRule.own, List.forall_mem_singleton] at hbound
    exact absurd rfl hbound

theorem exists_path_of_not_returns_conditional : ∀ c : Conditional,
    (∀ x ∈ c.exits .own [], x.IsBound) → (markConditional c).2 = false →
      ∃ es, c.HasPath es .goesOn
  | .mk _ condition onTrue onFalse _ _, hbound, hmark => by
    rw [Conditional.exits, List.forall_mem_append, List.forall_mem_append] at hbound
    rw [markConditional, Bool.and_eq_false_iff] at hmark
    rcases hmark with hmark | hmark
    · obtain ⟨es, h⟩ := exists_path_of_not_returns_block onTrue hbound.1.2 hmark
      exact ⟨_, es, rfl, .inl h⟩
    · obtain ⟨es, h⟩ := exists_path_of_not_returns_block onFalse hbound.2 hmark
      exact ⟨_, es, rfl, .inr h⟩

/-- A path goes on behind a block outside of all loops if the block is not marked as one that
returns. -/
theorem exists_path_of_not_returns_block : ∀ b : List Statement,
    (∀ x ∈ Block.exits .own [] b, x.IsBound) → (markBlock b).2 = false →
      ∃ es, Block.HasPath b es .goesOn
  | [], _, _ => ⟨[], rfl, .inl rfl⟩
  | s :: rest, hbound, hmark => by
    rw [Block.exits_cons, List.forall_mem_append] at hbound
    rw [markBlock, Bool.or_eq_false_iff] at hmark
    obtain ⟨es₁, hs⟩ := exists_path_of_not_returns_statement s hbound.1 hmark.1
    obtain ⟨es₂, hrest⟩ := exists_path_of_not_returns_block rest hbound.2 hmark.2
    exact ⟨es₁ ++ es₂, .inr (.inr ⟨es₁, es₂, hs, hrest, rfl⟩)⟩

end

/-- Outside of all loops, the mark of a block says whether there is a path that goes on behind it. -/
theorem exists_path_iff {b : Block} (hbound : ∀ x ∈ Block.loopExits [] b, x.IsBound) :
    (∃ es, Block.HasPath b es .goesOn) ↔ (markBlock b).2 = false := by
  refine ⟨fun ⟨es, h⟩ => Bool.eq_false_iff.mpr fun hmark => ?_,
    exists_path_of_not_returns_block b hbound⟩
  exact not_hasPath_of_returns_block b hmark es h

/-! ## Functions -/

variable {f g : Function} {m m' : Nat} {body pre : Block}

/-- What becomes of a function whose body has been flattened. -/
theorem result_flattenFunction
    (h : (flattenBlock 0 (if f.returnType.isVoid then .drop else .give) f.body).run m =
      ⟨.ok (), body, m'⟩) :
    ((flattenFunction f).run m).result =
      if f.returnType.isVoid || (markBlock body).2 then .ok { f with body := (markBlock body).1 }
      else .error ⟨f.token, .missingReturn f.name⟩ := by
  rw [flattenFunction, run_bind_ok (run_capture_ok h)]
  rcases markBlock body with ⟨marked, returns⟩
  dsimp only
  split <;> rfl

/-- A body that is flattened outside of all loops has no exit without a loop, nor has it one after
it is marked. -/
theorem isBound_markBlock {tail : Tail}
    (h : (flattenBlock 0 tail f.body).run m = ⟨.ok (), body, m'⟩) :
    ∀ x ∈ Block.loopExits [] (markBlock body).1, x.IsBound := by
  have hkeeps := keeps_flattenBlock f.body [] (List.Subset.refl _) tail m
  rw [List.length_nil, h] at hkeeps
  rw [Block.loopExits, exits_markBlock]
  exact hkeeps.bound

/-- **A return is missing just where a path goes on behind the end.** If the body of a function that
must return a value passes all other checks, all that it can be refused for is a missing return,
and it is refused just if there is a path that reaches the end of the flat body, whichever block of
each conditional it takes and however many turns of each loop. If it is accepted, no run of its
body reaches the end, or ends by an exit or a `next`: it returns, unless it has no end or is cut
off. -/
theorem flattenFunction_missingReturn_iff (hvalue : f.returnType.isVoid = false)
    (h : (flattenBlock 0 .give f.body).run m = ⟨.ok (), body, m'⟩) :
    (((flattenFunction f).run m).result = .error ⟨f.token, .missingReturn f.name⟩ ↔
      ∃ es, Block.HasPath (markBlock body).1 es .goesOn) ∧
    (∀ fault, ((flattenFunction f).run m).result = .error fault →
      fault = ⟨f.token, .missingReturn f.name⟩) ∧
    ∀ g, ((flattenFunction f).run m).result = .ok g →
      g = { f with body := (markBlock body).1 } ∧
      ∀ (α σ : Type) (I : Interpretation α σ) (turns : Nat) (s : σ), ∃ e s',
        I.block .strict turns g.body s = .error e s' ∧ e.Within 0 := by
  have hresult : ((flattenFunction f).run m).result = _ :=
    result_flattenFunction (by rw [hvalue]; exact h)
  rw [hvalue, Bool.false_or] at hresult
  have hbound := isBound_markBlock h
  rw [exists_path_iff hbound, returns_markBlock, hresult]
  cases hreturns : (markBlock body).2 with
  | false =>
    refine ⟨⟨fun _ => rfl, fun _ => rfl⟩, ?_, nofun⟩
    rintro fault ⟨⟩
    rfl
  | true =>
    refine ⟨⟨nofun, nofun⟩, nofun, ?_⟩
    rintro g ⟨⟩
    refine ⟨rfl, fun α σ I turns s => ?_⟩
    have hmarked : (markBlock (markBlock body).1).2 = true := by rw [returns_markBlock, hreturns]
    have hnever := blockFrom_of_returns I turns _ hmarked I.void s
    have hends := I.blockFrom_endsWithin .strict turns _ [] hbound I.void s
    cases hrun : I.block .strict turns (markBlock body).1 s with
    | ok v s' => exact absurd hrun (hnever v s')
    | error e s' => exact ⟨e, s', rfl, hends e s' hrun⟩

/-- A path goes around the loop of `while a { return b }`, and none goes on behind a `b` after it. -/
theorem flattenFunction_missingReturn_loop :
    let loop : Statement := .loop 1 [.var 1 ["a"] none] [.ret 2 [.var 2 ["b"] none]]
    let f : Function :=
      { token := 0, name := "f", isPublic := false, params := [], returnType := .bool, index := 0,
        uniqueName := none, locals := [], body := [loop] }
    let accepted : Function := { f with body := [loop, .eval 3 [.var 3 ["b"] none]] }
    f.returnType.isVoid = false ∧
    (flattenBlock 0 .give f.body).run 0 = ⟨.ok (), f.body, 0⟩ ∧
    ((flattenFunction f).run 0).result = .error ⟨0, .missingReturn "f"⟩ ∧
    (∃ es, Block.HasPath f.body es .goesOn) ∧
    (flattenBlock 0 .give accepted.body).run 0 =
      ⟨.ok (), [loop, .ret 3 [.var 3 ["b"] none]], 0⟩ ∧
    (¬ ∃ es, Block.HasPath [loop, .ret 3 [.var 3 ["b"] none]] es .goesOn) ∧
    ∃ g, ((flattenFunction accepted).run 0).result = .ok g ∧
      ∀ (α σ : Type) (I : Interpretation α σ) (turns : Nat) (s : σ), ∃ e s',
        I.block .strict turns g.body s = .error e s' ∧ e.Within 0 := by
  intro loop f accepted
  obtain ⟨hmissing, -, -⟩ := flattenFunction_missingReturn_iff (f := f) (m := 0) rfl rfl
  obtain ⟨hreturned, -, hruns⟩ := flattenFunction_missingReturn_iff (f := accepted) (m := 0) rfl rfl
  refine ⟨rfl, rfl, rfl, hmissing.mp rfl, rfl, ?_, _, rfl, (hruns _ rfl).2⟩
  exact fun hpath => nomatch hreturned.mpr hpath

/-- No run of the block goes on behind it. If no exit or `next` of the block leaves it, no run ends by
one either: it returns, unless it has no end or is cut off. -/
structure ReturnsUnlessLeft (b : Block) : Prop where
  ends : ∀ (α σ : Type) (I : Interpretation α σ) (turns : Nat) (s : σ),
    ∃ e s', I.block .strict turns b s = .error e s'
  leaves : (∀ x ∈ Block.loopExits [] b, x.IsBound) →
    ∀ (α σ : Type) (I : Interpretation α σ) (turns : Nat) (s s' : σ) (e : Ending α),
      I.block .strict turns b s = .error e s' → e.Within 0

theorem returnsUnlessLeft_of_returns {b : Block} (h : (markBlock b).2 = true) :
    ReturnsUnlessLeft b := by
  refine ⟨fun α σ I turns s => ?_, fun hbound α σ I turns s s' e hrun => ?_⟩
  · have hnever := blockFrom_of_returns I turns b h I.void s
    cases hrun : I.block .strict turns b s with
    | ok v s' => exact absurd hrun (hnever v s')
    | error e s' => exact ⟨e, s', rfl⟩
  · exact I.blockFrom_endsWithin .strict turns b [] hbound I.void s e s' hrun

/-- **What the marks of conditionals say.** A block of a conditional that is marked as one that
returns does not go on behind its end, wherever the conditional stands in a function that is accepted.
An exit or a `next` that leaves the block is not looked for, so only where there is none do all runs
that complete return. -/
theorem flattenFunction_marks (h : (flattenFunction f).run m = ⟨.ok g, pre, m'⟩) :
    ∀ c ∈ Block.conditionals g.body,
      (c.trueReturns = true → ReturnsUnlessLeft c.onTrue) ∧
      (c.falseReturns = true → ReturnsUnlessLeft c.onFalse) := by
  intro c hc
  obtain ⟨body, -, rfl, -⟩ := run_flattenFunction_eq_ok h
  obtain ⟨htrue, hfalse⟩ := isMarked_markBlock body c hc
  rw [htrue, hfalse]
  exact ⟨returnsUnlessLeft_of_returns, returnsUnlessLeft_of_returns⟩

/-- `if a { while b { break } return }`: the exit does not leave the marked block. -/
theorem flattenFunction_marks_loop :
    let onTrue : Block := [.loop 3 [.var 4 ["b"] none] [.exit 5 1], .ret 6 []]
    let f : Function :=
      { token := 0, name := "f", isPublic := false, params := [], returnType := .void, index := 0,
        uniqueName := none, locals := [],
        body := [.cond (.ofBlocks 1 [.var 2 ["a"] none] onTrue [])] }
    ∃ g, (flattenFunction f).run 0 = ⟨.ok g, [], 0⟩ ∧ ∃ c ∈ Block.conditionals g.body,
      c.onTrue = onTrue ∧ c.trueReturns = true ∧ c.falseReturns = false ∧
        ReturnsUnlessLeft c.onTrue ∧ ∀ x ∈ Block.loopExits [] c.onTrue, x.IsBound := by
  intro onTrue f
  have hrun : (flattenFunction f).run 0 = ⟨.ok { f with body :=
    [.cond (.mk 1 [.var 2 ["a"] none] onTrue [] true false)] }, [], 0⟩ := rfl
  have hmem : Conditional.mk 1 [.var 2 ["a"] none] onTrue [] true false ∈ Block.conditionals
      [.cond (.mk 1 [.var 2 ["a"] none] onTrue [] true false)] := List.mem_cons_self
  exact ⟨_, hrun, _, hmem, rfl, rfl, rfl, (flattenFunction_marks hrun _ hmem).1 rfl, by decide⟩

/-- `while { if a { if b { break } return } }`: the block that is marked as one that returns is left
by the exit where `b` is true. -/
theorem marked_block_left_by_exit :
    let f : Function :=
      { token := 0, name := "f", isPublic := false, params := [], returnType := .void, index := 0,
        uniqueName := none, locals := [],
        body := [.loop 1 [.bool 1 true] [.cond (.ofBlocks 2 [.var 3 ["a"] none]
          [.cond (.ofBlocks 4 [.var 5 ["b"] none] [.exit 6 1] []), .ret 7 []] [])]] }
    ∃ g, ((flattenFunction f).run 0).result = .ok g ∧ ∃ c ∈ Block.conditionals g.body,
      c.trueReturns = true ∧
        (Interpretation.recorded [["b"]]).block .strict 1 c.onTrue [] = .error (.exit 1) [] := by
  intro f
  exact ⟨_, rfl, _, List.mem_cons_self, rfl, rfl⟩

end ControlFlow

end FrontEnd
