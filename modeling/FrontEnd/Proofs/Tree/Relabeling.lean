import FrontEnd.Proofs.Printing.SourceText
import FrontEnd.Proofs.Tree.DottedNames
import FrontEnd.Proofs.Tree.Parts

/-!
# Trees with other labels

A tree keeps its shape where its tokens are numbered in another way and its variables
get other names. Only names without a dot are changed, since those with one lead to
other modules. To forget the tokens of a tree is a change of this kind.
-/

namespace FrontEnd

/-- Other tokens, and other names for variables. -/
structure Relabeling where
  token : Nat → Nat
  name : String → String

/-- The path of a variable under its other name. -/
def Relabeling.path (l : Relabeling) : List String → List String
  | [name] => [l.name name]
  | path => path

/-- The target of an assignment with other labels. -/
def Target.relabel (l : Relabeling) (t : Target) : Target :=
  ⟨l.token t.token, l.path t.path, t.binding⟩

mutual

/-- The node with other labels. -/
def Node.relabel (l : Relabeling) : Node → Node
  | .int token value type => .int (l.token token) value type
  | .float token value type => .float (l.token token) value type
  | .bool token value => .bool (l.token token) value
  | .var token path binding => .var (l.token token) (l.path path) binding
  | .op token operator => .op (l.token token) operator
  | .call token path arity candidates => .call (l.token token) path arity candidates
  | .cond c => .cond (c.relabel l)

/-- The nodes with other labels. -/
def Expr.relabel (l : Relabeling) : List Node → List Node
  | [] => []
  | n :: rest => n.relabel l :: Expr.relabel l rest

/-- The conditional with other labels. -/
def Conditional.relabel (l : Relabeling) : Conditional → Conditional
  | .mk token condition onTrue onFalse trueReturns falseReturns =>
    .mk (l.token token) (Expr.relabel l condition) (Block.relabel l onTrue)
      (Block.relabel l onFalse) trueReturns falseReturns

/-- The statement with other labels. -/
def Statement.relabel (l : Relabeling) : Statement → Statement
  | .declare token name type value slot =>
    .declare (l.token token) (l.name name) type (Expr.relabel l value) slot
  | .assign token target value =>
    .assign (l.token token) (target.relabel l) (Expr.relabel l value)
  | .eval token value => .eval (l.token token) (Expr.relabel l value)
  | .ret token value => .ret (l.token token) (Expr.relabel l value)
  | .cond c => .cond (c.relabel l)
  | .loop token condition body =>
    .loop (l.token token) (Expr.relabel l condition) (Block.relabel l body)
  | .exit token amount => .exit (l.token token) amount
  | .next token => .next (l.token token)

/-- The statements with other labels. -/
def Block.relabel (l : Relabeling) : List Statement → List Statement
  | [] => []
  | s :: rest => s.relabel l :: Block.relabel l rest

end

variable {l l' : Relabeling}

theorem Expr.relabel_eq_map (l : Relabeling) (e : Expr) : Expr.relabel l e = e.map (Node.relabel l) := by
  induction e with
  | nil => rw [Expr.relabel, List.map_nil]
  | cons n rest ih => rw [Expr.relabel, List.map_cons, ih]

theorem Block.relabel_eq_map (l : Relabeling) (b : Block) :
    Block.relabel l b = b.map (Statement.relabel l) := by
  induction b with
  | nil => rw [Block.relabel, List.map_nil]
  | cons s rest ih => rw [Block.relabel, List.map_cons, ih]

@[simp]
theorem Expr.relabel_nil : Expr.relabel l [] = [] := by rw [Expr.relabel]

@[simp]
theorem Expr.relabel_cons (n : Node) (rest : Expr) :
    Expr.relabel l (n :: rest) = n.relabel l :: Expr.relabel l rest := by
  rw [Expr.relabel]

@[simp]
theorem Expr.relabel_append (e e' : Expr) :
    Expr.relabel l (e ++ e') = Expr.relabel l e ++ Expr.relabel l e' := by
  rw [relabel_eq_map, relabel_eq_map, relabel_eq_map, List.map_append]

@[simp]
theorem Block.relabel_nil : Block.relabel l [] = [] := by rw [Block.relabel]

@[simp]
theorem Block.relabel_cons (s : Statement) (rest : Block) :
    Block.relabel l (s :: rest) = s.relabel l :: Block.relabel l rest := by
  rw [Block.relabel]

@[simp]
theorem Block.relabel_append (b b' : Block) :
    Block.relabel l (b ++ b') = Block.relabel l b ++ Block.relabel l b' := by
  rw [relabel_eq_map, relabel_eq_map, relabel_eq_map, List.map_append]

@[simp]
theorem Block.isEmpty_relabel (b : Block) : (Block.relabel l b).isEmpty = b.isEmpty := by
  cases b <;> simp

@[simp]
theorem Node.operands_relabel (n : Node) : (n.relabel l).operands = n.operands := by
  cases n <;> rw [Node.relabel] <;> rfl

@[simp]
theorem Node.hasEffect_relabel (n : Node) : (n.relabel l).hasEffect = n.hasEffect := by
  cases n <;> rw [Node.relabel] <;> rfl

@[simp]
theorem Node.isLiteral_relabel (n : Node) : (n.relabel l).isLiteral = n.isLiteral := by
  cases n <;> rw [Node.relabel] <;> rfl

@[simp]
theorem Expr.containsConditional_relabel (e : Expr) :
    Expr.containsConditional (Expr.relabel l e) = Expr.containsConditional e := by
  rw [Expr.containsConditional, relabel_eq_map, List.any_map, Expr.containsConditional]
  congr 1
  funext n
  cases n <;> simp only [Function.comp_apply, Node.relabel, Node.isConditional]

/-! ## Which labels matter -/

mutual

theorem Node.relabel_congr (ht : l.token = l'.token) : (n : Node) →
    (∀ path ∈ n.paths, l.path path = l'.path path) → n.relabel l = n.relabel l'
  | .var _ path _, h => by
    rw [Node.relabel, Node.relabel, ht, h path (by rw [Node.paths]; exact List.mem_singleton_self _)]
  | .cond c, h => by
    rw [Node.relabel, Node.relabel, Conditional.relabel_congr ht c (by rwa [Node.paths] at h)]
  | .int .., _ | .float .., _ | .bool .., _ | .op .., _ | .call .., _ => by
    rw [Node.relabel, Node.relabel, ht]

theorem Expr.relabel_congr (ht : l.token = l'.token) : (e : List Node) →
    (∀ path ∈ Expr.paths e, l.path path = l'.path path) → Expr.relabel l e = Expr.relabel l' e
  | [], _ => by rw [Expr.relabel, Expr.relabel]
  | n :: rest, h => by
    rw [Expr.paths, List.forall_mem_append] at h
    rw [Expr.relabel, Expr.relabel, n.relabel_congr ht h.1, Expr.relabel_congr ht rest h.2]

theorem Conditional.relabel_congr (ht : l.token = l'.token) : (c : Conditional) →
    (∀ path ∈ c.paths, l.path path = l'.path path) → c.relabel l = c.relabel l'
  | .mk _ condition onTrue onFalse _ _, h => by
    rw [Conditional.paths, List.forall_mem_append, List.forall_mem_append] at h
    rw [Conditional.relabel, Conditional.relabel, ht, Expr.relabel_congr ht condition h.1.1,
      Block.relabel_congr ht onTrue h.1.2, Block.relabel_congr ht onFalse h.2]

theorem Statement.relabel_congr (ht : l.token = l'.token) : (s : Statement) →
    (∀ path ∈ s.paths, l.path path = l'.path path) → s.relabel l = s.relabel l'
  | .declare _ name _ value _, h => by
    rw [Statement.paths, List.forall_mem_cons] at h
    have hname : l.name name = l'.name name := List.cons.inj h.1 |>.1
    rw [Statement.relabel, Statement.relabel, ht, hname, Expr.relabel_congr ht value h.2]
  | .assign _ target value, h => by
    rw [Statement.paths, List.forall_mem_cons] at h
    rw [Statement.relabel, Statement.relabel, Target.relabel, Target.relabel, ht, h.1,
      Expr.relabel_congr ht value h.2]
  | .eval _ value, h | .ret _ value, h => by
    rw [Statement.paths] at h
    rw [Statement.relabel, Statement.relabel, ht, Expr.relabel_congr ht value h]
  | .cond c, h => by
    rw [Statement.paths] at h
    rw [Statement.relabel, Statement.relabel, c.relabel_congr ht h]
  | .loop _ condition body, h => by
    rw [Statement.paths, List.forall_mem_append] at h
    rw [Statement.relabel, Statement.relabel, ht, Expr.relabel_congr ht condition h.1,
      Block.relabel_congr ht body h.2]
  | .exit .., _ | .next .., _ => by rw [Statement.relabel, Statement.relabel, ht]

/-- Two changes of labels that do the same to the variables of a block do the same to the block. -/
theorem Block.relabel_congr (ht : l.token = l'.token) : (b : List Statement) →
    (∀ path ∈ Block.paths b, l.path path = l'.path path) → Block.relabel l b = Block.relabel l' b
  | [], _ => by rw [Block.relabel, Block.relabel]
  | s :: rest, h => by
    rw [Block.paths, List.forall_mem_append] at h
    rw [Block.relabel, Block.relabel, s.relabel_congr ht h.1, Block.relabel_congr ht rest h.2]

end

/-! ## Dotted names -/

/-- The dotted name at its other token. -/
def DottedName.relabel (l : Relabeling) (d : DottedName) : DottedName :=
  { d with token := l.token d.token }

theorem dottedName_relabel (token : Nat) (path : List String) :
    dottedName (l.token token) path = (dottedName token path).map (DottedName.relabel l) := by
  unfold dottedName
  split <;> rfl

/-- A name with a dot is not changed. -/
theorem dottedName_relabel_path (token : Nat) (path : List String) :
    dottedName (l.token token) (l.path path) =
      (dottedName token path).map (DottedName.relabel l) := by
  match path with
  | [] | [_] => rfl
  | _ :: _ :: _ => exact dottedName_relabel token _

mutual

theorem Node.dottedNames_relabel : (n : Node) →
    (n.relabel l).dottedNames = n.dottedNames.map (DottedName.relabel l)
  | .var token path _ => by
    rw [Node.relabel, Node.dottedNames, Node.dottedNames, dottedName_relabel_path]
  | .call token path _ _ => by
    rw [Node.relabel, Node.dottedNames, Node.dottedNames, dottedName_relabel]
  | .cond c => by
    rw [Node.relabel, Node.dottedNames, Node.dottedNames, c.dottedNames_relabel]
  | .int .. | .float .. | .bool .. | .op .. => by
    rw [Node.relabel, Node.dottedNames, Node.dottedNames, List.map_nil]

theorem Expr.dottedNames_relabel : (e : List Node) →
    Expr.dottedNames (Expr.relabel l e) = (Expr.dottedNames e).map (DottedName.relabel l)
  | [] => by rw [Expr.relabel, Expr.dottedNames, List.map_nil]
  | n :: rest => by
    rw [Expr.relabel, Expr.dottedNames, Expr.dottedNames, List.map_append, n.dottedNames_relabel,
      Expr.dottedNames_relabel rest]

theorem Conditional.dottedNames_relabel : (c : Conditional) →
    (c.relabel l).dottedNames = c.dottedNames.map (DottedName.relabel l)
  | .mk _ condition onTrue onFalse _ _ => by
    rw [Conditional.relabel, Conditional.dottedNames, Conditional.dottedNames, List.map_append,
      List.map_append, Expr.dottedNames_relabel condition, Block.dottedNames_relabel onTrue,
      Block.dottedNames_relabel onFalse]

theorem Statement.dottedNames_relabel : (s : Statement) →
    (s.relabel l).dottedNames = s.dottedNames.map (DottedName.relabel l)
  | .declare _ _ _ value _ | .eval _ value | .ret _ value => by
    rw [Statement.relabel, Statement.dottedNames, Statement.dottedNames,
      Expr.dottedNames_relabel value]
  | .assign _ target value => by
    rw [Statement.relabel, Statement.dottedNames, Statement.dottedNames, List.map_append,
      Expr.dottedNames_relabel value, Target.relabel, dottedName_relabel_path]
  | .cond c => by
    rw [Statement.relabel, Statement.dottedNames, Statement.dottedNames, c.dottedNames_relabel]
  | .loop _ condition body => by
    rw [Statement.relabel, Statement.dottedNames, Statement.dottedNames, List.map_append,
      Expr.dottedNames_relabel condition, Block.dottedNames_relabel body]
  | .exit .. | .next .. => by
    rw [Statement.relabel, Statement.dottedNames, Statement.dottedNames, List.map_nil]

/-- The dotted names of a tree are at other tokens where it has other labels. -/
theorem Block.dottedNames_relabel : (b : List Statement) →
    Block.dottedNames (Block.relabel l b) = (Block.dottedNames b).map (DottedName.relabel l)
  | [] => by rw [Block.relabel, Block.dottedNames, List.map_nil]
  | s :: rest => by
    rw [Block.relabel, Block.dottedNames, Block.dottedNames, List.map_append, s.dottedNames_relabel,
      Block.dottedNames_relabel rest]

end

/-- The tokens are forgotten, and the names stay. -/
def Relabeling.forget : Relabeling := ⟨fun _ => 0, id⟩

theorem Relabeling.path_forget (path : List String) : forget.path path = path := by
  unfold Relabeling.path
  split <;> rfl

mutual

theorem Node.relabel_forget : (n : Node) → n.relabel .forget = n.withoutTokens
  | .var _ path _ => by rw [Node.relabel, Node.withoutTokens, Relabeling.path_forget]; rfl
  | .cond c => by rw [Node.relabel, Node.withoutTokens, c.relabel_forget]
  | .int .. | .float .. | .bool .. | .op .. | .call .. => by
    rw [Node.relabel, Node.withoutTokens]; rfl

theorem Expr.relabel_forget : (e : List Node) → Expr.relabel .forget e = Expr.withoutTokens e
  | [] => by rw [Expr.relabel, Expr.withoutTokens]
  | n :: rest => by
    rw [Expr.relabel, Expr.withoutTokens, n.relabel_forget, Expr.relabel_forget rest]

theorem Conditional.relabel_forget : (c : Conditional) → c.relabel .forget = c.withoutTokens
  | .mk _ condition onTrue onFalse _ _ => by
    rw [Conditional.relabel, Conditional.withoutTokens, Expr.relabel_forget condition,
      Block.relabel_forget onTrue, Block.relabel_forget onFalse]
    rfl

theorem Statement.relabel_forget : (s : Statement) → s.relabel .forget = s.withoutTokens
  | .declare _ _ _ value _ | .eval _ value | .ret _ value => by
    rw [Statement.relabel, Statement.withoutTokens, Expr.relabel_forget value]; rfl
  | .assign _ target value => by
    rw [Statement.relabel, Statement.withoutTokens, Target.relabel, Relabeling.path_forget,
      Expr.relabel_forget value]
    rfl
  | .cond c => by rw [Statement.relabel, Statement.withoutTokens, c.relabel_forget]
  | .loop _ condition body => by
    rw [Statement.relabel, Statement.withoutTokens, Expr.relabel_forget condition,
      Block.relabel_forget body]
    rfl
  | .exit .. | .next .. => by rw [Statement.relabel, Statement.withoutTokens]; rfl

/-- To forget the tokens is to change the labels. -/
theorem Block.relabel_forget : (b : List Statement) → Block.relabel .forget b = Block.withoutTokens b
  | [] => by rw [Block.relabel, Block.withoutTokens]
  | s :: rest => by
    rw [Block.relabel, Block.withoutTokens, s.relabel_forget, Block.relabel_forget rest]

end

end FrontEnd
