import FrontEnd.Tree.Basic

/-!
# The expressions inside a tree

All expressions of a statement or a block at any depth, those in the conditions and
blocks of conditional nodes included. A declaration or a return without a value holds
none.
-/

namespace FrontEnd

mutual

/-- The expressions inside the conditional that a node may be. -/
def Node.exprs : Node → List (List Node)
  | .cond c => c.exprs
  | _ => []

/-- The expressions inside the conditionals of an expression, itself not included. -/
def Expr.inner : List Node → List (List Node)
  | [] => []
  | n :: rest => n.exprs ++ Expr.inner rest

/-- The expressions of a conditional at any depth. -/
def Conditional.exprs : Conditional → List (List Node)
  | .mk _ condition onTrue onFalse _ _ =>
    condition :: Expr.inner condition ++ Block.exprs onTrue ++ Block.exprs onFalse

/-- The expressions of a statement at any depth. -/
def Statement.exprs : Statement → List (List Node)
  | .declare _ _ _ value _ | .ret _ value =>
    if value.isEmpty then [] else value :: Expr.inner value
  | .assign _ _ value | .eval _ value => value :: Expr.inner value
  | .cond c => c.exprs
  | .loop _ condition body => condition :: Expr.inner condition ++ Block.exprs body
  | .exit _ _ | .next _ => []

/-- The expressions of a block at any depth. -/
def Block.exprs : List Statement → List (List Node)
  | [] => []
  | s :: rest => s.exprs ++ Block.exprs rest

end

mutual

/-- The paths of variables in a node. -/
def Node.paths : Node → List (List String)
  | .var _ path _ => [path]
  | .cond c => c.paths
  | _ => []

/-- The paths of variables in an expression. -/
def Expr.paths : List Node → List (List String)
  | [] => []
  | n :: rest => n.paths ++ Expr.paths rest

/-- The paths of variables in a conditional. -/
def Conditional.paths : Conditional → List (List String)
  | .mk _ condition onTrue onFalse _ _ =>
    Expr.paths condition ++ Block.paths onTrue ++ Block.paths onFalse

/-- The paths of variables that a statement reads, writes or declares. -/
def Statement.paths : Statement → List (List String)
  | .declare _ name _ value _ => [name] :: Expr.paths value
  | .assign _ target value => target.path :: Expr.paths value
  | .eval _ value | .ret _ value => Expr.paths value
  | .cond c => c.paths
  | .loop _ condition body => Expr.paths condition ++ Block.paths body
  | .exit _ _ | .next _ => []

/-- The paths of variables that a block reads, writes or declares. -/
def Block.paths : List Statement → List (List String)
  | [] => []
  | s :: rest => s.paths ++ Block.paths rest

end

/-- The paths of a node are among those of its expression. -/
theorem Expr.mem_paths {n : Node} {e : Expr} (h : n ∈ e) {p : List String} (hp : p ∈ n.paths) :
    p ∈ Expr.paths e := by
  induction e with
  | nil => cases h
  | cons n' rest ih =>
    rw [Expr.paths, List.mem_append]
    rcases List.mem_cons.mp h with rfl | hr
    · exact .inl hp
    · exact .inr (ih hr)

theorem Expr.inner_append (e e' : Expr) :
    Expr.inner (e ++ e') = Expr.inner e ++ Expr.inner e' := by
  induction e with
  | nil => rfl
  | cons n rest ih => simp only [List.cons_append, Expr.inner, ih, List.append_assoc]

end FrontEnd
