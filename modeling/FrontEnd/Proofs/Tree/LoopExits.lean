import FrontEnd.Tree.Item

/-!
# Exits of loops

The statements of a tree that leave loops or go on with the next turn of one, in the order
in which they stand, each with the loops around it. A loop is around its condition just as
around its body. The exits that loops get where their conditions hold conditionals are
listed apart.
-/

namespace FrontEnd

/-- A statement that leaves loops, or goes on with the next turn of one, where it stands. -/
structure LoopExit where
  token : Nat
  /-- How many loops are left; nothing if the innermost one goes on with its next turn. -/
  amount : Option Nat
  /-- The tokens of the loops around the statement, the innermost first. -/
  loops : List Nat
  deriving DecidableEq, Repr

namespace LoopExit

/-- There are as many loops around the statement as it needs. -/
def IsBound : LoopExit → Prop
  | ⟨_, some amount, loops⟩ => 1 ≤ amount ∧ amount ≤ loops.length
  | ⟨_, none, loops⟩ => loops ≠ []

instance : (x : LoopExit) → Decidable x.IsBound
  | ⟨_, some amount, loops⟩ => inferInstanceAs (Decidable (1 ≤ amount ∧ amount ≤ loops.length))
  | ⟨_, none, loops⟩ => inferInstanceAs (Decidable (loops ≠ []))

end LoopExit

/-- Which exits a loop, an exit or a `next` inside some loops has itself. -/
abbrev ExitRule := List Nat → Statement → List LoopExit

/-- The exit that a statement is. -/
def ExitRule.own : ExitRule
  | loops, .exit token amount => [⟨token, some amount, loops⟩]
  | loops, .next token => [⟨token, none, loops⟩]
  | _, .declare .. | _, .assign .. | _, .eval .. | _, .ret .. | _, .cond _ | _, .loop .. => []

/-- The exit of a loop whose condition has to be tested in its body, because it holds a
conditional. -/
def ExitRule.test : ExitRule
  | loops, .loop token condition _ =>
    if Expr.containsConditional condition then [⟨token, some 1, token :: loops⟩] else []
  | _, .declare .. | _, .assign .. | _, .eval .. | _, .ret .. | _, .cond _ | _, .exit ..
  | _, .next _ => []

mutual

/-- The exits in a node. -/
def Node.exits (rule : ExitRule) (loops : List Nat) : Node → List LoopExit
  | .cond c => c.exits rule loops
  | .int .. | .float .. | .bool .. | .var .. | .op .. | .call .. => []

/-- The exits in an expression. -/
def Expr.exits (rule : ExitRule) (loops : List Nat) : List Node → List LoopExit
  | [] => []
  | n :: rest => n.exits rule loops ++ Expr.exits rule loops rest

/-- The exits in a conditional. -/
def Conditional.exits (rule : ExitRule) (loops : List Nat) : Conditional → List LoopExit
  | .mk _ condition onTrue onFalse _ _ =>
    Expr.exits rule loops condition ++ Block.exits rule loops onTrue ++ Block.exits rule loops onFalse

/-- The exits in a statement. -/
def Statement.exits (rule : ExitRule) (loops : List Nat) : Statement → List LoopExit
  | .declare _ _ _ value _ | .assign _ _ value | .eval _ value | .ret _ value =>
    Expr.exits rule loops value
  | .cond c => c.exits rule loops
  | .loop token condition body =>
    rule loops (.loop token condition body) ++ Expr.exits rule (token :: loops) condition ++
      Block.exits rule (token :: loops) body
  | .exit token amount => rule loops (.exit token amount)
  | .next token => rule loops (.next token)

/-- The exits in a block. -/
def Block.exits (rule : ExitRule) (loops : List Nat) : List Statement → List LoopExit
  | [] => []
  | s :: rest => s.exits rule loops ++ Block.exits rule loops rest

end

/-- The statements of a block inside some loops that leave loops or go on with a next turn. -/
def Block.loopExits (loops : List Nat) (b : Block) : List LoopExit :=
  Block.exits .own loops b

/-- The exits of the loops of a block that have to test their conditions in their bodies. -/
def Block.loopTests (loops : List Nat) (b : Block) : List LoopExit :=
  Block.exits .test loops b

variable {rule : ExitRule} {loops : List Nat}

theorem Node.exits_of_not_isConditional {n : Node} (h : n.isConditional = false) :
    n.exits rule loops = [] := by
  cases n with
  | cond c => cases h
  | _ => rw [Node.exits]

@[simp]
theorem Expr.exits_nil : Expr.exits rule loops [] = [] := by rw [Expr.exits]

@[simp]
theorem Expr.exits_cons (n : Node) (rest : Expr) :
    Expr.exits rule loops (n :: rest) = n.exits rule loops ++ Expr.exits rule loops rest := by
  rw [Expr.exits]

theorem Expr.exits_append (e e' : Expr) :
    Expr.exits rule loops (e ++ e') = Expr.exits rule loops e ++ Expr.exits rule loops e' := by
  induction e with
  | nil => simp
  | cons n rest ih => simp [ih]

/-- Only conditionals have statements in an expression. -/
theorem Expr.exits_of_not_containsConditional {e : Expr} (h : e.containsConditional = false) :
    Expr.exits rule loops e = [] := by
  induction e with
  | nil => exact Expr.exits_nil
  | cons n rest ih =>
    rw [Expr.containsConditional, List.any_cons, Bool.or_eq_false_iff] at h
    rw [Expr.exits_cons, Node.exits_of_not_isConditional h.1, List.nil_append]
    exact ih h.2

@[simp]
theorem Block.exits_nil : Block.exits rule loops [] = [] := by rw [Block.exits]

@[simp]
theorem Block.exits_cons (s : Statement) (rest : Block) :
    Block.exits rule loops (s :: rest) = s.exits rule loops ++ Block.exits rule loops rest := by
  rw [Block.exits]

theorem Block.exits_append (b b' : Block) :
    Block.exits rule loops (b ++ b') = Block.exits rule loops b ++ Block.exits rule loops b' := by
  induction b with
  | nil => simp
  | cons s rest ih => simp [ih]

end FrontEnd
