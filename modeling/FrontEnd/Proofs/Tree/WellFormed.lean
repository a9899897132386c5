import FrontEnd.Proofs.Tree.Parts
import FrontEnd.Proofs.Tree.Postfix
import FrontEnd.Tree.Item

/-!
# Well-formed trees

What every later stage relies on in a tree: its tokens are of a given kind, such as those
of one file, and each of its expressions, at any depth, is complete. Only a declaration
and a return may do without a value.
-/

namespace FrontEnd

mutual

/-- The tokens that a node refers to. -/
def Node.tokens : Node → List Nat
  | .int token _ _ | .float token _ _ | .bool token _ | .var token _ _ | .op token _
  | .call token _ _ _ => [token]
  | .cond c => c.tokens

/-- The tokens that an expression refers to. -/
def Expr.tokens : List Node → List Nat
  | [] => []
  | n :: rest => n.tokens ++ Expr.tokens rest

/-- The tokens that a conditional refers to. -/
def Conditional.tokens : Conditional → List Nat
  | .mk token condition onTrue onFalse _ _ =>
    token :: (Expr.tokens condition ++ Block.tokens onTrue ++ Block.tokens onFalse)

/-- The tokens that a statement refers to. An assignment refers to that of its target too. -/
def Statement.tokens : Statement → List Nat
  | .declare token _ _ value _ | .eval token value | .ret token value => token :: Expr.tokens value
  | .assign token target value => token :: target.token :: Expr.tokens value
  | .cond c => c.tokens
  | .loop token condition body => token :: (Expr.tokens condition ++ Block.tokens body)
  | .exit token _ | .next token => [token]

/-- The tokens that a block refers to. -/
def Block.tokens : List Statement → List Nat
  | [] => []
  | s :: rest => s.tokens ++ Block.tokens rest

end

/-- The tokens that an item refers to. -/
def Item.tokens : Item → List Nat
  | .function f => f.token :: (f.params.map Param.token ++ Block.tokens f.body)
  | .global g => [g.token]
  | .imports i => i.token :: i.selected.map Prod.fst
  | .submodule s => [s.token]

/-- The expressions of an item at any depth. Only functions have any. -/
def Item.exprs : Item → List Expr
  | .function f => Block.exprs f.body
  | _ => []

mutual

/-- All tokens of a node have a property, and its expressions are complete. -/
def Node.WellFormed (T : Nat → Prop) : Node → Prop
  | .int token _ _ | .float token _ _ | .bool token _ | .var token _ _ | .op token _
  | .call token _ _ _ => T token
  | .cond c => c.WellFormed T

/-- All nodes are well formed. -/
def Expr.NodesWellFormed (T : Nat → Prop) : List Node → Prop
  | [] => True
  | n :: rest => n.WellFormed T ∧ Expr.NodesWellFormed T rest

/-- A conditional needs a complete condition. -/
def Conditional.WellFormed (T : Nat → Prop) : Conditional → Prop
  | .mk token condition onTrue onFalse _ _ =>
    T token ∧ (Expr.IsComplete condition ∧ Expr.NodesWellFormed T condition) ∧
      Block.WellFormed T onTrue ∧ Block.WellFormed T onFalse

/-- All tokens of a statement have a property, and its expressions are complete. -/
def Statement.WellFormed (T : Nat → Prop) : Statement → Prop
  | .declare token _ _ value _ | .ret token value =>
    T token ∧ (value ≠ [] → Expr.IsComplete value) ∧ Expr.NodesWellFormed T value
  | .assign token target value =>
    T token ∧ T target.token ∧ Expr.IsComplete value ∧ Expr.NodesWellFormed T value
  | .eval token value => T token ∧ Expr.IsComplete value ∧ Expr.NodesWellFormed T value
  | .cond c => c.WellFormed T
  | .loop token condition body =>
    T token ∧ (Expr.IsComplete condition ∧ Expr.NodesWellFormed T condition) ∧
      Block.WellFormed T body
  | .exit token _ | .next token => T token

/-- All statements are well formed. -/
def Block.WellFormed (T : Nat → Prop) : List Statement → Prop
  | [] => True
  | s :: rest => s.WellFormed T ∧ Block.WellFormed T rest

end

/-- An expression that must have a value. -/
def Expr.WellFormed (T : Nat → Prop) (e : Expr) : Prop :=
  Expr.IsComplete e ∧ Expr.NodesWellFormed T e

/-- An expression that may be left out. -/
def Expr.OptionWellFormed (T : Nat → Prop) (e : Expr) : Prop :=
  (e ≠ [] → Expr.IsComplete e) ∧ Expr.NodesWellFormed T e

/-- All tokens of an item have a property, and its expressions are complete. -/
def Item.WellFormed (T : Nat → Prop) : Item → Prop
  | .function f => T f.token ∧ (∀ p ∈ f.params, T p.token) ∧ Block.WellFormed T f.body
  | .global g => T g.token
  | .imports i => T i.token ∧ ∀ n ∈ i.selected, T n.1
  | .submodule s => T s.token

variable {T : Nat → Prop}

theorem Expr.nodesWellFormed_iff {e : Expr} :
    NodesWellFormed T e ↔ ∀ n ∈ e, n.WellFormed T := by
  induction e with
  | nil => exact iff_of_true trivial (List.forall_mem_nil _)
  | cons n rest ih => rw [NodesWellFormed, List.forall_mem_cons, ih]

theorem Expr.nodesWellFormed_append {e e' : Expr} :
    NodesWellFormed T (e ++ e') ↔ NodesWellFormed T e ∧ NodesWellFormed T e' := by
  simp only [nodesWellFormed_iff, List.forall_mem_append]

theorem Block.wellFormed_iff {b : Block} : WellFormed T b ↔ ∀ s ∈ b, s.WellFormed T := by
  induction b with
  | nil => exact iff_of_true trivial (List.forall_mem_nil _)
  | cons s rest ih => rw [WellFormed, List.forall_mem_cons, ih]

theorem Block.wellFormed_append {b b' : Block} :
    WellFormed T (b ++ b') ↔ WellFormed T b ∧ WellFormed T b' := by
  simp only [wellFormed_iff, List.forall_mem_append]

theorem Expr.WellFormed.option {e : Expr} (h : e.WellFormed T) : e.OptionWellFormed T :=
  ⟨fun _ => h.1, h.2⟩

theorem Expr.OptionWellFormed.of_ne_nil {e : Expr} (h : e.OptionWellFormed T) (hne : e ≠ []) :
    e.WellFormed T :=
  ⟨h.1 hne, h.2⟩

theorem Expr.optionWellFormed_nil : OptionWellFormed T [] := ⟨fun h => absurd rfl h, trivial⟩

/-- A node that takes no operands is an expression. -/
theorem Expr.wellFormed_singleton {n : Node} (h : n.WellFormed T) (hn : n.operands = 0) :
    WellFormed T [n] := by
  refine ⟨?_, h, trivial⟩
  rw [IsComplete, depthAfter_cons (Nat.le_of_eq hn), hn]
  rfl

mutual

theorem Node.WellFormed.tokens : (n : Node) → n.WellFormed T → ∀ t ∈ n.tokens, T t
  | .int .., h | .float .., h | .bool .., h | .var .., h | .op .., h | .call .., h =>
    List.forall_mem_singleton.mpr h
  | .cond c, h => Conditional.WellFormed.tokens c h

theorem Expr.NodesWellFormed.tokens :
    (e : List Node) → Expr.NodesWellFormed T e → ∀ t ∈ Expr.tokens e, T t
  | [], _ => List.forall_mem_nil _
  | n :: rest, ⟨hn, hrest⟩ =>
    List.forall_mem_append.mpr ⟨Node.WellFormed.tokens n hn, Expr.NodesWellFormed.tokens rest hrest⟩

theorem Conditional.WellFormed.tokens :
    (c : Conditional) → c.WellFormed T → ∀ t ∈ c.tokens, T t
  | .mk _ condition onTrue onFalse _ _, ⟨htoken, ⟨_, hc⟩, ht, hf⟩ =>
    List.forall_mem_cons.mpr ⟨htoken, List.forall_mem_append.mpr ⟨List.forall_mem_append.mpr
      ⟨Expr.NodesWellFormed.tokens condition hc, Block.WellFormed.tokens onTrue ht⟩,
      Block.WellFormed.tokens onFalse hf⟩⟩

theorem Statement.WellFormed.tokens :
    (s : Statement) → s.WellFormed T → ∀ t ∈ s.tokens, T t
  | .declare _ _ _ value _, ⟨htoken, _, hv⟩ | .eval _ value, ⟨htoken, _, hv⟩
  | .ret _ value, ⟨htoken, _, hv⟩ =>
    List.forall_mem_cons.mpr ⟨htoken, Expr.NodesWellFormed.tokens value hv⟩
  | .assign _ _ value, ⟨htoken, htarget, _, hv⟩ =>
    List.forall_mem_cons.mpr ⟨htoken, List.forall_mem_cons.mpr
      ⟨htarget, Expr.NodesWellFormed.tokens value hv⟩⟩
  | .cond c, h => Conditional.WellFormed.tokens c h
  | .loop _ condition body, ⟨htoken, ⟨_, hc⟩, hb⟩ =>
    List.forall_mem_cons.mpr ⟨htoken, List.forall_mem_append.mpr
      ⟨Expr.NodesWellFormed.tokens condition hc, Block.WellFormed.tokens body hb⟩⟩
  | .exit .., h | .next _, h => List.forall_mem_singleton.mpr h

theorem Block.WellFormed.tokens :
    (b : List Statement) → Block.WellFormed T b → ∀ t ∈ Block.tokens b, T t
  | [], _ => List.forall_mem_nil _
  | s :: rest, ⟨hs, hrest⟩ =>
    List.forall_mem_append.mpr ⟨Statement.WellFormed.tokens s hs, Block.WellFormed.tokens rest hrest⟩

end

mutual

theorem Node.WellFormed.exprs : (n : Node) → n.WellFormed T → ∀ e ∈ n.exprs, Expr.IsComplete e
  | .cond c, h => Conditional.WellFormed.exprs c h
  | .int .., _ | .float .., _ | .bool .., _ | .var .., _ | .op .., _ | .call .., _ =>
    by simp [Node.exprs]

/-- The expressions inside the conditionals of an expression are complete. -/
theorem Expr.NodesWellFormed.inner :
    (e : List Node) → Expr.NodesWellFormed T e → ∀ e' ∈ Expr.inner e, Expr.IsComplete e'
  | [], _ => List.forall_mem_nil _
  | n :: rest, ⟨hn, hrest⟩ =>
    List.forall_mem_append.mpr ⟨Node.WellFormed.exprs n hn, Expr.NodesWellFormed.inner rest hrest⟩

theorem Conditional.WellFormed.exprs :
    (c : Conditional) → c.WellFormed T → ∀ e ∈ c.exprs, Expr.IsComplete e
  | .mk _ condition onTrue onFalse _ _, ⟨_, ⟨hcomplete, hc⟩, ht, hf⟩ =>
    List.forall_mem_append.mpr ⟨List.forall_mem_append.mpr
      ⟨List.forall_mem_cons.mpr ⟨hcomplete, Expr.NodesWellFormed.inner condition hc⟩,
        Block.WellFormed.exprs onTrue ht⟩, Block.WellFormed.exprs onFalse hf⟩

theorem Statement.WellFormed.exprs :
    (s : Statement) → s.WellFormed T → ∀ e ∈ s.exprs, Expr.IsComplete e
  | .declare _ _ _ value _, ⟨_, hcomplete, hv⟩ | .ret _ value, ⟨_, hcomplete, hv⟩ => by
    rw [Statement.exprs]
    split
    · exact List.forall_mem_nil _
    · next hne =>
      have hne : value ≠ [] := fun h => hne (List.isEmpty_iff.mpr h)
      exact List.forall_mem_cons.mpr ⟨hcomplete hne, Expr.NodesWellFormed.inner value hv⟩
  | .assign _ _ value, ⟨_, _, hcomplete, hv⟩ | .eval _ value, ⟨_, hcomplete, hv⟩ =>
    List.forall_mem_cons.mpr ⟨hcomplete, Expr.NodesWellFormed.inner value hv⟩
  | .cond c, h => Conditional.WellFormed.exprs c h
  | .loop _ condition body, ⟨_, ⟨hcomplete, hc⟩, hb⟩ =>
    List.forall_mem_append.mpr
      ⟨List.forall_mem_cons.mpr ⟨hcomplete, Expr.NodesWellFormed.inner condition hc⟩,
        Block.WellFormed.exprs body hb⟩
  | .exit .., _ | .next .., _ => List.forall_mem_nil _

theorem Block.WellFormed.exprs :
    (b : List Statement) → Block.WellFormed T b → ∀ e ∈ Block.exprs b, Expr.IsComplete e
  | [], _ => List.forall_mem_nil _
  | s :: rest, ⟨hs, hrest⟩ =>
    List.forall_mem_append.mpr ⟨Statement.WellFormed.exprs s hs, Block.WellFormed.exprs rest hrest⟩

end

theorem Item.WellFormed.tokens {i : Item} (h : i.WellFormed T) : ∀ t ∈ i.tokens, T t := by
  cases i with
  | function f =>
    refine List.forall_mem_cons.mpr ⟨h.1, List.forall_mem_append.mpr ⟨?_, ?_⟩⟩
    · exact List.forall_mem_map.mpr h.2.1
    · exact Block.WellFormed.tokens f.body h.2.2
  | global g | submodule s => exact List.forall_mem_singleton.mpr h
  | imports i => exact List.forall_mem_cons.mpr ⟨h.1, List.forall_mem_map.mpr h.2⟩

theorem Item.WellFormed.exprs {i : Item} (h : i.WellFormed T) :
    ∀ e ∈ i.exprs, Expr.IsComplete e := by
  cases i with
  | function f => exact Block.WellFormed.exprs f.body h.2.2
  | global | imports | submodule => exact List.forall_mem_nil _

end FrontEnd
