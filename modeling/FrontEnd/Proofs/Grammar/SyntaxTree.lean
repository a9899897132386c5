import FrontEnd.Grammar.Pending

/-!
# The grammar of expressions

Levels 0 to 9 are those of the binary operators by precedence, which group to the left.
At level 10 are literals and names, prefix operators before something of level 10,
parentheses around anything, and calls. A derivation gives a syntax tree, in which
operators and calls have the indices of their own tokens. Written in postfix order, a
tree can be told from every other one.
-/

namespace FrontEnd.Grammar

open Token (Shape)

/-- What an expression without conditionals says, free of parentheses. -/
inductive SyntaxTree
  | atom (n : Node)
  | unary (token : Nat) (o : Operator) (operand : SyntaxTree)
  | binary (token : Nat) (o : Operator) (left right : SyntaxTree)
  | call (token : Nat) (path : List String) (arguments : List SyntaxTree)

mutual

/-- The nodes of a tree, operands before what takes them. -/
def SyntaxTree.nodes : SyntaxTree → Expr
  | .atom n => [n]
  | .unary token o operand => operand.nodes ++ [.op token o]
  | .binary token o left right => left.nodes ++ right.nodes ++ [.op token o]
  | .call token path arguments =>
    nodesOfAll arguments ++ [.call token path arguments.length []]

def nodesOfAll : List SyntaxTree → Expr
  | [] => []
  | t :: rest => t.nodes ++ nodesOfAll rest

end

/-- The node of a literal or a name. -/
def atomOf? (index : Nat) : Shape → Option Node
  | .numeral n => some (Progress.literal index n)
  | .identifier path => some (.var index path none)
  | .keyword .trueKw => some (.bool index true)
  | .keyword .falseKw => some (.bool index false)
  | _ => none

/-- The binary operator of a token. -/
def binaryOf? : Shape → Option Operator
  | .mark m => (Operator.ofMark? m).filter (· ≠ .not)
  | _ => none

/-- The prefix operator of a token. -/
def prefixOf? : Shape → Option Operator
  | .mark m => (Operator.ofMark? m).bind Operator.prefixForm?
  | _ => none

mutual

/-- Tokens, of which the first one has the given index, are an expression of a level. -/
inductive Derives : (level index : Nat) → List Shape → SyntaxTree → Prop
  | atom {index : Nat} {s : Shape} {n : Node} (h : atomOf? index s = some n) :
    Derives 10 index [s] (.atom n)
  | unary {index : Nat} {s : Shape} {o : Operator} {ws : List Shape} {t : SyntaxTree}
    (h : prefixOf? s = some o) (ht : Derives 10 (index + 1) ws t) :
    Derives 10 index (s :: ws) (.unary index o t)
  | group {index : Nat} {ws : List Shape} {t : SyntaxTree} (h : Derives 0 (index + 1) ws t) :
    Derives 10 index (.mark .openParen :: ws ++ [.mark .closeParen]) t
  | callEmpty {index : Nat} (path : List String) :
    Derives 10 index [.identifier path, .mark .openParen, .mark .closeParen] (.call index path [])
  | call {index : Nat} (path : List String) {ws : List Shape} {ts : List SyntaxTree}
    (h : DerivesAll (index + 2) ws ts) :
    Derives 10 index (.identifier path :: .mark .openParen :: ws ++ [.mark .closeParen])
      (.call index path ts)
  | binary {index : Nat} {s : Shape} {o : Operator} {ls rs : List Shape} {l r : SyntaxTree}
    (h : binaryOf? s = some o) (hl : Derives o.precedence index ls l)
    (hr : Derives (o.precedence + 1) (index + ls.length + 1) rs r) :
    Derives o.precedence index (ls ++ s :: rs) (.binary (index + ls.length) o l r)
  | tighter {level index : Nat} {ws : List Shape} {t : SyntaxTree} (hl : level < 10)
    (h : Derives (level + 1) index ws t) : Derives level index ws t

/-- Tokens are one or more expressions with commas between them. -/
inductive DerivesAll : (index : Nat) → List Shape → List SyntaxTree → Prop
  | one {index : Nat} {ws : List Shape} {t : SyntaxTree} (h : Derives 0 index ws t) :
    DerivesAll index ws [t]
  | more {index : Nat} {ws rs : List Shape} {ts : List SyntaxTree} {t : SyntaxTree}
    (hs : DerivesAll index ws ts) (h : Derives 0 (index + ws.length + 1) rs t) :
    DerivesAll index (ws ++ .mark .comma :: rs) (ts ++ [t])

end

theorem nodesOfAll_append (ts ts' : List SyntaxTree) :
    nodesOfAll (ts ++ ts') = nodesOfAll ts ++ nodesOfAll ts' := by
  induction ts with
  | nil => rfl
  | cons t ts ih => rw [List.cons_append, nodesOfAll, nodesOfAll, ih, List.append_assoc]

theorem Derives.of_le {level level' index : Nat} {ws : List Shape} {t : SyntaxTree}
    (h : Derives level index ws t) (hl : level' ≤ level) (hle : level ≤ 10) :
    Derives level' index ws t := by
  induction hd : level - level' generalizing level' with
  | zero =>
    have : level' = level := by omega
    rwa [this]
  | succ d ih => exact .tighter (by omega) (ih (by omega) (by omega))

theorem Derives.level_le {level index : Nat} {ws : List Shape} {t : SyntaxTree}
    (h : Derives level index ws t) : level ≤ 10 := by
  cases h with
  | binary => rename_i o _ _ _ _ _ _ _; cases o <;> decide
  | tighter hl => exact Nat.le_of_lt hl
  | _ => exact Nat.le_refl 10

/-- The trees on a stack after some nodes have been put back together. -/
def rebuild (stack : List SyntaxTree) : List Node → List SyntaxTree
  | [] => stack
  | .op token o :: rest =>
    match o.isPrefixOp, stack with
    | true, t :: below => rebuild (.unary token o t :: below) rest
    | false, r :: l :: below => rebuild (.binary token o l r :: below) rest
    | _, _ => []
  | .call token path arity _ :: rest =>
    rebuild (.call token path (stack.take arity).reverse :: stack.drop arity) rest
  | n :: rest => rebuild (.atom n :: stack) rest

theorem isPrefixOp_of_prefixOf? {s : Shape} {o : Operator} (h : prefixOf? s = some o) :
    o.isPrefixOp = true := by
  cases s with
  | mark m =>
    rw [prefixOf?, Option.bind_eq_some_iff] at h
    obtain ⟨o', -, ho⟩ := h
    cases o' <;> cases ho <;> rfl
  | _ => cases h

theorem isPrefixOp_of_binaryOf? {s : Shape} {o : Operator} (h : binaryOf? s = some o) :
    o.isPrefixOp = false := by
  cases s with
  | mark m =>
    rw [binaryOf?, Option.filter_eq_some_iff] at h
    obtain ⟨ho, hnot⟩ := h
    cases m <;> cases ho
    all_goals first | rfl | cases hnot
  | _ => cases h

theorem rebuild_atom {index : Nat} {s : Shape} {n : Node} (h : atomOf? index s = some n)
    (stack : List SyntaxTree) (rest : Expr) :
    rebuild stack (n :: rest) = rebuild (.atom n :: stack) rest := by
  cases s with
  | numeral m =>
    cases h
    unfold Progress.literal
    split <;> rfl
  | identifier path =>
    cases h
    rfl
  | keyword k => cases k <;> cases h <;> rfl
  | _ => cases h

theorem rebuild_unary {o : Operator} (h : o.isPrefixOp = true) (token : Nat) (t : SyntaxTree)
    (stack : List SyntaxTree) (rest : Expr) :
    rebuild (t :: stack) (.op token o :: rest) = rebuild (.unary token o t :: stack) rest := by
  simp only [rebuild, h]

theorem rebuild_binary {o : Operator} (h : o.isPrefixOp = false) (token : Nat) (l r : SyntaxTree)
    (stack : List SyntaxTree) (rest : Expr) :
    rebuild (r :: l :: stack) (.op token o :: rest) =
      rebuild (.binary token o l r :: stack) rest := by
  simp only [rebuild, h]

mutual

theorem rebuild_nodes {level index : Nat} {ws : List Shape} {t : SyntaxTree}
    (stack : List SyntaxTree) (rest : Expr) :
    Derives level index ws t → rebuild stack (t.nodes ++ rest) = rebuild (t :: stack) rest
  | .atom h => rebuild_atom h stack rest
  | .unary h ht => by
    rw [SyntaxTree.nodes, List.append_assoc, rebuild_nodes _ _ ht, List.singleton_append,
      rebuild_unary (isPrefixOp_of_prefixOf? h)]
  | .group h => rebuild_nodes stack rest h
  | .callEmpty path => rfl
  | .call path h => by
    rw [SyntaxTree.nodes, List.append_assoc, rebuild_nodesOfAll _ _ h, List.singleton_append,
      rebuild, List.take_left' List.length_reverse, List.drop_left' List.length_reverse,
      List.reverse_reverse]
  | .binary h hl hr => by
    rw [SyntaxTree.nodes, List.append_assoc, List.append_assoc, rebuild_nodes _ _ hl,
      rebuild_nodes _ _ hr, List.singleton_append,
      rebuild_binary (isPrefixOp_of_binaryOf? h)]
  | .tighter _ h => rebuild_nodes stack rest h

theorem rebuild_nodesOfAll {index : Nat} {ws : List Shape} {ts : List SyntaxTree}
    (stack : List SyntaxTree) (rest : Expr) :
    DerivesAll index ws ts →
      rebuild stack (nodesOfAll ts ++ rest) = rebuild (ts.reverse ++ stack) rest
  | .one h => by
    rw [nodesOfAll, nodesOfAll, List.append_nil, rebuild_nodes _ _ h]
    rfl
  | .more hs h => by
    rw [nodesOfAll_append, List.append_assoc, rebuild_nodesOfAll _ _ hs, nodesOfAll, nodesOfAll,
      List.append_nil, rebuild_nodes _ _ h, List.reverse_append]
    rfl

end

/-- Trees of expressions that are the same in postfix order are the same. -/
theorem Derives.eq_of_nodes {level level' index index' : Nat} {ws ws' : List Shape}
    {t t' : SyntaxTree} (h : Derives level index ws t) (h' : Derives level' index' ws' t')
    (he : t.nodes = t'.nodes) : t = t' := by
  have ht := rebuild_nodes [] [] h
  have ht' := rebuild_nodes [] [] h'
  rw [he, ht', rebuild, rebuild] at ht
  exact (List.cons.inj ht).1.symm

end FrontEnd.Grammar
