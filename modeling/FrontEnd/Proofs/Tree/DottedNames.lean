import FrontEnd.Tree.Item

/-!
# Dotted names

The names with a dot that stand in a tree, each with its token, in the order in which
they are evaluated: the value of an assignment before its target, a condition before
its blocks. Names without a dot are left out; they never mean another module.
-/

namespace FrontEnd

/-- A name of at least two segments, at a token. -/
structure DottedName where
  token : Nat
  path : List String
  deriving DecidableEq, Repr

/-- The dotted name that a path at a token is, if it is one. -/
def dottedName (token : Nat) (path : List String) : List DottedName :=
  if path.length < 2 then [] else [⟨token, path⟩]

mutual

/-- The dotted names of a node. -/
def Node.dottedNames : Node → List DottedName
  | .var token path _ => dottedName token path
  | .call token path _ _ => dottedName token path
  | .cond c => c.dottedNames
  | .int _ _ _ | .float _ _ _ | .bool _ _ | .op _ _ => []

/-- The dotted names of an expression. -/
def Expr.dottedNames : List Node → List DottedName
  | [] => []
  | n :: rest => n.dottedNames ++ Expr.dottedNames rest

/-- The dotted names of a conditional. -/
def Conditional.dottedNames : Conditional → List DottedName
  | .mk _ condition onTrue onFalse _ _ =>
    Expr.dottedNames condition ++ Block.dottedNames onTrue ++ Block.dottedNames onFalse

/-- The dotted names of a statement. -/
def Statement.dottedNames : Statement → List DottedName
  | .declare _ _ _ value _ => Expr.dottedNames value
  | .assign _ target value => Expr.dottedNames value ++ dottedName target.token target.path
  | .eval _ value | .ret _ value => Expr.dottedNames value
  | .cond c => c.dottedNames
  | .loop _ condition body => Expr.dottedNames condition ++ Block.dottedNames body
  | .exit _ _ | .next _ => []

/-- The dotted names of a block. -/
def Block.dottedNames : List Statement → List DottedName
  | [] => []
  | s :: rest => s.dottedNames ++ Block.dottedNames rest

end

theorem dottedName_single (token : Nat) (name : String) : dottedName token [name] = [] := rfl

theorem mem_dottedName {token : Nat} {path : List String} {d : DottedName} :
    d ∈ dottedName token path ↔ 2 ≤ path.length ∧ d = ⟨token, path⟩ := by
  unfold dottedName
  split
  · next h => simp only [List.not_mem_nil, false_iff]; omega
  · next h => simp only [List.mem_singleton]; exact ⟨fun hd => ⟨by omega, hd⟩, And.right⟩

@[simp]
theorem Expr.dottedNames_nil : Expr.dottedNames [] = [] := by rw [Expr.dottedNames]

@[simp]
theorem Expr.dottedNames_cons (n : Node) (rest : Expr) :
    Expr.dottedNames (n :: rest) = n.dottedNames ++ Expr.dottedNames rest := by
  rw [Expr.dottedNames]

@[simp]
theorem Block.dottedNames_nil : Block.dottedNames [] = [] := by rw [Block.dottedNames]

@[simp]
theorem Block.dottedNames_cons (s : Statement) (rest : Block) :
    Block.dottedNames (s :: rest) = s.dottedNames ++ Block.dottedNames rest := by
  rw [Block.dottedNames]

end FrontEnd
