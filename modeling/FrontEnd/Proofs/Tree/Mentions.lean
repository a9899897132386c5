import FrontEnd.Proofs.Tree.DottedNames
import FrontEnd.Proofs.Tree.Parts

/-!
# Mentions

All names that stand in a tree, each with its token and what it is there for, in the
order in which they are evaluated: a value before the name that takes it, a condition
before its blocks, and a conditional node in the place where it stands. The dotted names
and the paths of a tree are among its mentions.
-/

namespace FrontEnd

/-- A name at a token. A call has a number of arguments, a declaration a value or none. -/
inductive Mention
  | read (token : Nat) (path : List String)
  | call (token : Nat) (path : List String) (arity : Nat)
  | write (token : Nat) (path : List String)
  | declare (token : Nat) (name : String) (hasValue : Bool)
  deriving DecidableEq, Repr

namespace Mention

/-- The token of the name. -/
def token : Mention → Nat
  | read token _ | call token _ _ | write token _ | declare token _ _ => token

/-- The name, cut at its dots. -/
def path : Mention → List String
  | read _ path | call _ path _ | write _ path => path
  | declare _ name _ => [name]

/-- The name of a function that is called. -/
def isCall : Mention → Bool
  | call _ _ _ => true
  | _ => false

/-- Variables that are read and functions that are called are nodes of expressions. -/
def isNode : Mention → Bool
  | read _ _ | call _ _ _ => true
  | _ => false

/-- The dotted name that a mention is, if it is one. -/
def dottedNames (m : Mention) : List DottedName := dottedName m.token m.path

theorem paths_append {ps ps' : List (List String)} {ms ms' : List Mention}
    (h : ps ⊆ ms.map path) (h' : ps' ⊆ ms'.map path) : ps ++ ps' ⊆ (ms ++ ms').map path := by
  rw [List.map_append]
  exact List.append_subset.mpr
    ⟨List.subset_append_of_subset_left _ h, List.subset_append_of_subset_right _ h'⟩

theorem paths_cons {ps : List (List String)} {ms : List Mention} (h : ps ⊆ ms.map path)
    (m : Mention) : m.path :: ps ⊆ (ms ++ [m]).map path := by
  rw [List.map_append]
  exact List.cons_subset.mpr ⟨List.mem_append_right _ (List.mem_singleton_self _),
    List.subset_append_of_subset_left _ h⟩

end Mention

mutual

/-- The mentions in a node. -/
def Node.mentions : Node → List Mention
  | .var token path _ => [.read token path]
  | .call token path arity _ => [.call token path arity]
  | .cond c => c.mentions
  | .int _ _ _ | .float _ _ _ | .bool _ _ | .op _ _ => []

/-- The mentions in an expression. -/
def Expr.mentions : List Node → List Mention
  | [] => []
  | n :: rest => n.mentions ++ Expr.mentions rest

/-- The mentions in a conditional. -/
def Conditional.mentions : Conditional → List Mention
  | .mk _ condition onTrue onFalse _ _ =>
    Expr.mentions condition ++ Block.mentions onTrue ++ Block.mentions onFalse

/-- The mentions in a statement. -/
def Statement.mentions : Statement → List Mention
  | .declare token name _ value _ => Expr.mentions value ++ [.declare token name !value.isEmpty]
  | .assign _ target value => Expr.mentions value ++ [.write target.token target.path]
  | .eval _ value | .ret _ value => Expr.mentions value
  | .cond c => c.mentions
  | .loop _ condition body => Expr.mentions condition ++ Block.mentions body
  | .exit _ _ | .next _ => []

/-- The mentions in a block. -/
def Block.mentions : List Statement → List Mention
  | [] => []
  | s :: rest => s.mentions ++ Block.mentions rest

end

theorem Node.mentions_of_isLiteral {n : Node} (h : n.isLiteral = true) : n.mentions = [] := by
  cases n with
  | int | float | bool => rw [Node.mentions]
  | _ => cases h

@[simp]
theorem Expr.mentions_nil : Expr.mentions [] = [] := by rw [Expr.mentions]

@[simp]
theorem Expr.mentions_cons (n : Node) (rest : Expr) :
    Expr.mentions (n :: rest) = n.mentions ++ Expr.mentions rest := by
  rw [Expr.mentions]

@[simp]
theorem Expr.mentions_append (e e' : Expr) :
    Expr.mentions (e ++ e') = Expr.mentions e ++ Expr.mentions e' := by
  induction e with
  | nil => simp
  | cons n rest ih => simp [ih]

theorem Expr.mem_mentions {e : Expr} {m : Mention} :
    m ∈ Expr.mentions e ↔ ∃ n ∈ e, m ∈ n.mentions := by
  induction e with
  | nil => simp
  | cons n rest ih => simp [ih]

@[simp]
theorem Block.mentions_nil : Block.mentions [] = [] := by rw [Block.mentions]

@[simp]
theorem Block.mentions_cons (s : Statement) (rest : Block) :
    Block.mentions (s :: rest) = s.mentions ++ Block.mentions rest := by
  rw [Block.mentions]

@[simp]
theorem Block.mentions_append (b b' : Block) :
    Block.mentions (b ++ b') = Block.mentions b ++ Block.mentions b' := by
  induction b with
  | nil => simp
  | cons s rest ih => simp [ih]

theorem Block.mem_mentions {b : Block} {m : Mention} :
    m ∈ Block.mentions b ↔ ∃ s ∈ b, m ∈ s.mentions := by
  induction b with
  | nil => simp
  | cons s rest ih => simp [ih]

mutual

theorem Node.dottedNames_eq : (n : Node) → n.dottedNames = n.mentions.flatMap Mention.dottedNames
  | .cond c => by
    rw [Node.dottedNames, Node.mentions]
    exact Conditional.dottedNames_eq c
  | .var .. | .call .. => by
    rw [Node.dottedNames, Node.mentions, List.flatMap_singleton]
    rfl
  | .int .. | .float .. | .bool .. | .op .. => by
    rw [Node.dottedNames, Node.mentions, List.flatMap_nil]

theorem Expr.dottedNames_eq :
    (e : List Node) → Expr.dottedNames e = (Expr.mentions e).flatMap Mention.dottedNames
  | [] => by rw [Expr.dottedNames, Expr.mentions, List.flatMap_nil]
  | n :: rest => by
    rw [Expr.dottedNames, Expr.mentions, List.flatMap_append, Node.dottedNames_eq n,
      Expr.dottedNames_eq rest]

theorem Conditional.dottedNames_eq :
    (c : Conditional) → c.dottedNames = c.mentions.flatMap Mention.dottedNames
  | .mk _ condition onTrue onFalse _ _ => by
    rw [Conditional.dottedNames, Conditional.mentions, List.flatMap_append, List.flatMap_append,
      Expr.dottedNames_eq condition, Block.dottedNames_eq onTrue, Block.dottedNames_eq onFalse]

theorem Statement.dottedNames_eq :
    (s : Statement) → s.dottedNames = s.mentions.flatMap Mention.dottedNames
  | .declare _ name _ value _ => by
    rw [Statement.dottedNames, Statement.mentions, List.flatMap_append, List.flatMap_singleton,
      Mention.dottedNames, Mention.path, dottedName_single, List.append_nil,
      Expr.dottedNames_eq value]
  | .assign _ target value => by
    rw [Statement.dottedNames, Statement.mentions, List.flatMap_append, List.flatMap_singleton,
      Expr.dottedNames_eq value]
    rfl
  | .eval _ value | .ret _ value => by
    rw [Statement.dottedNames, Statement.mentions]
    exact Expr.dottedNames_eq value
  | .cond c => by
    rw [Statement.dottedNames, Statement.mentions]
    exact Conditional.dottedNames_eq c
  | .loop _ condition body => by
    rw [Statement.dottedNames, Statement.mentions, List.flatMap_append,
      Expr.dottedNames_eq condition, Block.dottedNames_eq body]
  | .exit .. | .next .. => by rw [Statement.dottedNames, Statement.mentions, List.flatMap_nil]

/-- The dotted names of a block are its mentions of at least two segments. -/
theorem Block.dottedNames_eq :
    (b : List Statement) → Block.dottedNames b = (Block.mentions b).flatMap Mention.dottedNames
  | [] => by rw [Block.dottedNames, Block.mentions, List.flatMap_nil]
  | s :: rest => by
    rw [Block.dottedNames, Block.mentions, List.flatMap_append, Statement.dottedNames_eq s,
      Block.dottedNames_eq rest]

end

mutual

theorem Node.paths_subset : (n : Node) → n.paths ⊆ n.mentions.map Mention.path
  | .cond c => by
    rw [Node.paths, Node.mentions]
    exact Conditional.paths_subset c
  | .var .. => by
    rw [Node.paths, Node.mentions]
    exact List.Subset.refl _
  | .int .. | .float .. | .bool .. | .op .. | .call .. => by
    rw [Node.paths]
    · exact List.nil_subset _
    all_goals nofun

theorem Expr.paths_subset : (e : List Node) → Expr.paths e ⊆ (Expr.mentions e).map Mention.path
  | [] => by
    rw [Expr.paths]
    exact List.nil_subset _
  | n :: rest => by
    rw [Expr.paths, Expr.mentions]
    exact Mention.paths_append (Node.paths_subset n) (Expr.paths_subset rest)

theorem Conditional.paths_subset : (c : Conditional) → c.paths ⊆ c.mentions.map Mention.path
  | .mk _ condition onTrue onFalse _ _ => by
    rw [Conditional.paths, Conditional.mentions]
    exact Mention.paths_append
      (Mention.paths_append (Expr.paths_subset condition) (Block.paths_subset onTrue))
      (Block.paths_subset onFalse)

theorem Statement.paths_subset : (s : Statement) → s.paths ⊆ s.mentions.map Mention.path
  | .declare token name _ value _ => by
    rw [Statement.paths, Statement.mentions]
    exact Mention.paths_cons (Expr.paths_subset value) (.declare token name !value.isEmpty)
  | .assign _ target value => by
    rw [Statement.paths, Statement.mentions]
    exact Mention.paths_cons (Expr.paths_subset value) (.write target.token target.path)
  | .eval _ value | .ret _ value => by
    rw [Statement.paths, Statement.mentions]
    exact Expr.paths_subset value
  | .cond c => by
    rw [Statement.paths, Statement.mentions]
    exact Conditional.paths_subset c
  | .loop _ condition body => by
    rw [Statement.paths, Statement.mentions]
    exact Mention.paths_append (Expr.paths_subset condition) (Block.paths_subset body)
  | .exit .. | .next .. => by
    rw [Statement.paths]
    exact List.nil_subset _

/-- The paths of a block are mentioned in it. -/
theorem Block.paths_subset :
    (b : List Statement) → Block.paths b ⊆ (Block.mentions b).map Mention.path
  | [] => by
    rw [Block.paths]
    exact List.nil_subset _
  | s :: rest => by
    rw [Block.paths, Block.mentions]
    exact Mention.paths_append (Statement.paths_subset s) (Block.paths_subset rest)

end

end FrontEnd
