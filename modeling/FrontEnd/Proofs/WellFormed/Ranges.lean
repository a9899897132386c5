import FrontEnd.Proofs.ControlFlow.Hoisting
import FrontEnd.Proofs.ShortCircuit.Rewriting

/-!
# Operands as ranges

The operands on a stack may be kept as ranges of the sequence that has been read, and cut
out of it where they are needed. These ranges follow one another up to the end of the
sequence, whatever expression is read, so none of them ever reaches beyond it, and what is
cut out are the operands.
-/

namespace FrontEnd

/-- A part of a sequence, from the node at `start` up to but not including that at `stop`. -/
structure Expr.Range where
  start : Nat
  stop : Nat
  deriving DecidableEq, Repr

/-- The nodes in a range, if the range lies in the sequence. -/
def Expr.slice? (e : Expr) (range : Range) : Option Expr :=
  if range.start ≤ range.stop ∧ range.stop ≤ e.length then
    some ((e.take range.stop).drop range.start)
  else none

/-- Where the first of some operands starts, of which the last one comes first. Without operands this
is the place that has been reached. -/
def Expr.startOf (operands : List Range) (reached : Nat) : Nat :=
  (operands.getLast?.map Range.start).getD reached

theorem Expr.slice?_append (before e after : Expr) :
    slice? (before ++ e ++ after) ⟨before.length, (before ++ e).length⟩ = some e := by
  rw [slice?, if_pos]
  · dsimp only
    rw [List.take_left, List.drop_left]
  · simp

open ControlFlow (nodesOnStack nodesOnStack_cons nodesOnStack_pushNode pushNode)

/-- The ranges of the operands on a stack, of which the last one comes first, in the sequence of all
of them. -/
def Expr.rangesOf : List Expr → List Range
  | [] => []
  | e :: below => ⟨(nodesOnStack below).length, (nodesOnStack (e :: below)).length⟩ :: rangesOf below

namespace Expr

theorem drop_rangesOf (operands : List Expr) (n : Nat) :
    (rangesOf operands).drop n = rangesOf (operands.drop n) := by
  induction operands generalizing n with
  | nil => rw [rangesOf, List.drop_nil, List.drop_nil, rangesOf]
  | cons e below ih =>
    cases n with
    | zero => rfl
    | succ n => rw [rangesOf, List.drop_succ_cons, List.drop_succ_cons, ih]

/-- What some of the last operands start with follows those below. -/
theorem startOf_rangesOf (operands : List Expr) (n : Nat) :
    startOf ((rangesOf operands).take n) (nodesOnStack operands).length =
      (nodesOnStack (operands.drop n)).length := by
  induction operands generalizing n with
  | nil => rw [rangesOf, List.take_nil, List.drop_nil, startOf, List.getLast?_nil]; rfl
  | cons e below ih =>
    cases n with
    | zero => rfl
    | succ n =>
      rw [rangesOf, List.take_succ_cons, List.drop_succ_cons, ← ih n, startOf, startOf]
      cases (rangesOf below).take n with
      | nil => rfl
      | cons range ranges =>
        rw [List.getLast?_cons_cons, List.getLast?_cons]
        rfl

end Expr

namespace ShortCircuit

/-- An operand that is kept as a range, with whether it may have an effect. -/
structure RangedOperand where
  range : Expr.Range
  effect : Bool

/-- The rewritten expression, if a node that stands at an index is a logical operator whose right
operand may have an effect. The parts of it are cut out of the whole expression, which fails if a
range does not lie in it. -/
def replace? (e : Expr) (index : Nat) (n : Node) (operands : List RangedOperand) :
    Option (Option Expr) :=
  match n, operands with
  | .op token o, [right, left] =>
    if o.isLogical && right.effect then do
      let leftNodes ← Expr.slice? e left.range
      let rightNodes ← Expr.slice? e right.range
      let before ← Expr.slice? e ⟨0, left.range.start⟩
      let after ← Expr.slice? e ⟨index + 1, e.length⟩
      return some (before ++ .cond (conditionalOf token o leftNodes rightNodes) :: after)
    else return none
  | _, _ => return none

/-- Rewrites the first operator that needs it, with the operands kept as ranges of the expression.
`index` is the number of nodes that have been read. -/
def rewriteRangesFrom (e : Expr) (seen : List RangedOperand) (index : Nat) :
    List Node → Option (Option Expr)
  | [] => return none
  | n :: rest =>
    if seen.length < n.operands then return none
    else do
      let own := seen.take n.operands
      match ← replace? e index n own with
      | some e => return some e
      | none =>
        let start := Expr.startOf (own.map RangedOperand.range) index
        rewriteRangesFrom e
          (⟨⟨start, index + 1⟩, n.hasEffect || own.any RangedOperand.effect⟩ ::
            seen.drop n.operands) (index + 1) rest

/-- Rewrites the first logical operator whose right operand may have an effect. -/
def rewriteRanges (e : Expr) : Option (Option Expr) := rewriteRangesFrom e [] 0 e

/-- Operands as ranges of the nodes that have been read. -/
def ranged : List Operand → List RangedOperand
  | [] => []
  | o :: below => ⟨⟨(nodesOf below).length, (nodesOf (o :: below)).length⟩, o.effect⟩ :: ranged below

theorem nodesOf_eq (os : List Operand) : nodesOf os = nodesOnStack (os.map Operand.nodes) := by
  rw [nodesOf, nodesOnStack, List.map_reverse]

theorem map_range_ranged (os : List Operand) :
    (ranged os).map RangedOperand.range = Expr.rangesOf (os.map Operand.nodes) := by
  induction os with
  | nil => rfl
  | cons o below ih =>
    rw [ranged, List.map_cons, ih, List.map_cons, Expr.rangesOf, nodesOf_eq, nodesOf_eq,
      List.map_cons]

theorem map_effect_ranged (os : List Operand) :
    (ranged os).map RangedOperand.effect = os.map Operand.effect := by
  induction os with
  | nil => rfl
  | cons o below ih => rw [ranged, List.map_cons, List.map_cons, ih]

theorem length_ranged (os : List Operand) : (ranged os).length = os.length := by
  rw [← List.length_map (f := RangedOperand.effect), map_effect_ranged, List.length_map]

theorem drop_ranged (os : List Operand) (n : Nat) : (ranged os).drop n = ranged (os.drop n) := by
  induction os generalizing n with
  | nil => rw [ranged, List.drop_nil, List.drop_nil, ranged]
  | cons o below ih =>
    cases n with
    | zero => rfl
    | succ n => rw [ranged, List.drop_succ_cons, List.drop_succ_cons, ih]

theorem any_effect_take_ranged (os : List Operand) (n : Nat) :
    ((ranged os).take n).any RangedOperand.effect = (os.take n).any Operand.effect := by
  have hmap := congrArg (fun effects => (effects.take n).any id) (map_effect_ranged os)
  simpa [← List.map_take, List.any_map, Function.comp_def] using hmap

theorem nodesOf_ofNode (seen : List Operand) (n : Node) :
    nodesOf (.ofNode n (seen.take n.operands) :: seen.drop n.operands) = nodesOf seen ++ [n] := by
  rw [nodesOf_cons, Operand.ofNode, ← List.append_assoc, ← nodesOf_append, List.take_append_drop]

/-- What a node makes of its operands, with the nodes left out. -/
theorem ranged_ofNode (seen : List Operand) (n : Node) :
    ranged (.ofNode n (seen.take n.operands) :: seen.drop n.operands) =
      ⟨⟨Expr.startOf (((ranged seen).take n.operands).map RangedOperand.range) (nodesOf seen).length,
          (nodesOf seen).length + 1⟩,
        n.hasEffect || ((ranged seen).take n.operands).any RangedOperand.effect⟩ ::
        (ranged seen).drop n.operands := by
  rw [ranged, nodesOf_ofNode, List.length_append, List.length_singleton, any_effect_take_ranged,
    drop_ranged, List.map_take, map_range_ranged, nodesOf_eq seen, Expr.startOf_rangesOf,
    nodesOf_eq, List.map_drop]
  rfl

/-- The ranges of two operands and of what is around them are where these are. -/
theorem replace?_operands (below : List Operand) (left right : Operand) (token : Nat) (o : Operator)
    (rest : Expr) (h : o.isLogical && right.effect) :
    let read := nodesOf (right :: left :: below)
    replace? (read ++ .op token o :: rest) read.length (.op token o)
        ((ranged (right :: left :: below)).take 2) =
      some (some (nodesOf below ++
        .cond (conditionalOf token o left.nodes right.nodes) :: rest)) := by
  intro read
  have hread : read = nodesOf below ++ left.nodes ++ right.nodes := by
    rw [← nodesOf_cons, ← nodesOf_cons]
  have hleft : Expr.slice? (read ++ .op token o :: rest)
      ⟨(nodesOf below).length, (nodesOf (left :: below)).length⟩ = some left.nodes := by
    rw [hread, List.append_assoc, nodesOf_cons]
    exact Expr.slice?_append _ _ _
  have hright : Expr.slice? (read ++ .op token o :: rest)
      ⟨(nodesOf (left :: below)).length, read.length⟩ = some right.nodes := by
    rw [hread, nodesOf_cons]
    exact Expr.slice?_append _ _ _
  have hbefore : Expr.slice? (read ++ .op token o :: rest) ⟨0, (nodesOf below).length⟩ =
      some (nodesOf below) := by
    rw [hread, List.append_assoc, List.append_assoc]
    exact Expr.slice?_append [] _ _
  have hafter : Expr.slice? (read ++ .op token o :: rest)
      ⟨read.length + 1, (read ++ .op token o :: rest).length⟩ = some rest := by
    have hslice := Expr.slice?_append (read ++ [.op token o]) rest []
    simpa using hslice
  change (if o.isLogical && right.effect then _ else _) = _
  rw [if_pos h]
  dsimp only
  rw [hleft, hright, hbefore, hafter]
  rfl

/-- The ranges of a stack are where the operands are, so the same conditional is made. -/
theorem replace?_ranged (seen : List Operand) (n : Node) (rest : Expr) :
    replace? (nodesOf seen ++ n :: rest) (nodesOf seen).length n ((ranged seen).take n.operands) =
      some ((conditional? n (seen.take n.operands)).map fun c =>
        nodesOf (seen.drop n.operands) ++ .cond c :: rest) := by
  cases n with
  | op token o =>
    have harity : (Node.op token o).operands = 1 ∨ (Node.op token o).operands = 2 := by
      change o.arity = 1 ∨ o.arity = 2
      unfold Operator.arity
      split
      · exact .inl rfl
      · exact .inr rfl
    rcases harity with hone | htwo
    · rw [hone]
      cases seen <;> rfl
    · rw [htwo]
      rcases seen with _ | ⟨right, _ | ⟨left, below⟩⟩
      · rfl
      · rfl
      · by_cases h : (o.isLogical && right.effect) = true
        · rw [replace?_operands below left right token o rest h]
          change _ = some (Option.map _ (if o.isLogical && right.effect then _ else _))
          rw [if_pos h]
          rfl
        · change (if o.isLogical && right.effect then _ else _) =
            some (Option.map _ (if o.isLogical && right.effect then _ else _))
          rw [if_neg h, if_neg h]
          rfl
  | _ => rfl

theorem rewriteRangesFrom_ranged {e : Expr} (rest : Expr) (seen : List Operand)
    (h : e = nodesOf seen ++ rest) :
    rewriteRangesFrom e (ranged seen) (nodesOf seen).length rest =
      some (rewriteFrom seen rest) := by
  induction rest generalizing seen with
  | nil => rfl
  | cons n rest ih =>
    rw [rewriteRangesFrom, rewriteFrom_cons, length_ranged]
    split
    · rfl
    · subst h
      dsimp only
      rw [replace?_ranged, Option.bind_eq_bind, Option.bind_some]
      cases conditional? n (seen.take n.operands) with
      | some c => rfl
      | none =>
        have hread : nodesOf seen ++ n :: rest =
            nodesOf (.ofNode n (seen.take n.operands) :: seen.drop n.operands) ++ rest := by
          rw [nodesOf_ofNode, List.append_assoc, List.singleton_append]
        have hrest := ih _ hread
        rw [ranged_ofNode, nodesOf_ofNode, List.length_append] at hrest
        exact hrest

/-- No range reaches beyond the expression, and what is cut out of it are the operands. -/
theorem rewriteRanges_eq (e : Expr) : rewriteRanges e = some (rewriteOnce e) :=
  rewriteRangesFrom_ranged e [] rfl

end ShortCircuit

namespace ControlFlow

open Emit

variable {α β : Type}

theorem pure_eq_lift (a : α) : (pure a : OptionT Emit α) = OptionT.lift (pure a) := rfl

theorem lift_bind {x : Emit α} {f : α → Emit β} {g : α → OptionT Emit β}
    (h : ∀ a, g a = OptionT.lift (f a)) : OptionT.lift x >>= g = OptionT.lift (x >>= f) := by
  refine OptionT.ext ?_
  simp [funext h]

/-- Stores an operand in a temporary, of which one node is left. -/
def storeNode (token : Nat) (operand : Expr) : Emit Node := do
  let temp ← fresh
  emit (.declare token temp none operand none)
  return .var token [temp] none

/-- The one node that is left of an operand once statements that come before the rest of the
expression cannot change it. -/
def parkNode (token : Nat) (operand : Expr) : Emit Node :=
  match operand with
  | [n] => if n.isLiteral || isTemporary n then return n else storeNode token operand
  | _ => storeNode token operand

theorem park_eq (token : Nat) (operand : Expr) :
    park token operand = parkNode token operand >>= fun n => pure [n] := by
  unfold park parkNode
  split
  · next n =>
    dsimp only
    split
    · rw [pure_bind]
    · simp only [storeNode, bind_assoc, pure_bind]
  · next hne =>
    simp only [storeNode, bind_assoc, pure_bind]

/-- Parks the operands of which the ranges are given. They are cut out of the sequence that has been
read, and the nodes that are left of them make up a new one. -/
def spillRanges (token : Nat) (read : Expr) : List Expr.Range →
    OptionT Emit (Expr × List Expr.Range)
  | [] => return ([], [])
  | range :: below => do
    let (left, ranges) ← spillRanges token read below
    let operand ← OptionT.mk (pure (Expr.slice? read range))
    let n ← OptionT.lift (parkNode token operand)
    return (left ++ [n], ⟨left.length, left.length + 1⟩ :: ranges)

/-- Takes the conditionals out of an expression, with the operands on the stack kept as ranges of the
sequence that has been read. -/
def hoistRanges (depth : Nat) (read : Expr) (operands : List Expr.Range) :
    List Node → OptionT Emit Expr
  | [] => return read
  | .cond c :: rest => do
    let (read, operands) ← spillRanges c.token read operands
    let temp ← OptionT.lift (reserve c)
    OptionT.lift (flattenConditional depth (.store temp) c)
    hoistRanges depth (read ++ [.var c.token [temp] none])
      (⟨read.length, read.length + 1⟩ :: operands) rest
  | n :: rest =>
    let start := Expr.startOf (operands.take n.operands) read.length
    hoistRanges depth (read ++ [n]) (⟨start, read.length + 1⟩ :: operands.drop n.operands) rest

/-- What goes on from a result in another form. -/
theorem lift_map_bind {γ : Type} {x : Emit α} {p : α → γ} {f : α → Emit β} {g : γ → OptionT Emit β}
    (h : ∀ a, g (p a) = OptionT.lift (f a)) :
    OptionT.lift (x >>= fun a => pure (p a)) >>= g = OptionT.lift (x >>= f) := by
  rw [← lift_bind fun a => pure_eq_lift (p a), bind_assoc]
  refine lift_bind fun a => ?_
  rw [pure_bind, h]

theorem mk_pure_some_bind (a : α) (f : α → OptionT Emit β) :
    OptionT.mk (pure (some a)) >>= f = f a :=
  pure_bind a f

/-- The ranges of a stack are where the operands are, and one node is left of each. -/
theorem spillRanges_rangesOf (token : Nat) (operands : List Expr) (rest : Expr) :
    spillRanges token (nodesOnStack operands ++ rest) (Expr.rangesOf operands) =
      OptionT.lift (spill token operands >>= fun spilled =>
        pure (nodesOnStack spilled, Expr.rangesOf spilled)) := by
  induction operands generalizing rest with
  | nil => rfl
  | cons e below ih =>
    rw [Expr.rangesOf, spillRanges, spill, nodesOnStack_cons, List.append_assoc, ih,
      ← List.append_assoc, Expr.slice?_append]
    -- What is left of the operands below is followed by the one node that is left of this one.
    refine (lift_map_bind (f := fun spilled => parkNode token e >>= fun n =>
      pure (nodesOnStack spilled ++ [n], ⟨(nodesOnStack spilled).length,
        (nodesOnStack spilled).length + 1⟩ :: Expr.rangesOf spilled)) fun spilled => ?_).trans ?_
    · exact (mk_pure_some_bind e _).trans (lift_bind fun n => pure_eq_lift _)
    simp only [bind_assoc, pure_bind, park_eq, nodesOnStack_cons, Expr.rangesOf, List.length_append,
      List.length_singleton]

theorem rangesOf_pushNode (operands : List Expr) (n : Node) :
    Expr.rangesOf (pushNode operands n) =
      ⟨Expr.startOf ((Expr.rangesOf operands).take n.operands) (nodesOnStack operands).length,
        (nodesOnStack operands).length + 1⟩ :: (Expr.rangesOf operands).drop n.operands := by
  rw [Expr.startOf_rangesOf, Expr.drop_rangesOf, pushNode, Expr.rangesOf]
  have hpush := nodesOnStack_pushNode operands n
  rw [pushNode] at hpush
  rw [hpush, List.length_append, List.length_singleton]

/-- No range reaches beyond what has been read, and what is cut out of it are the operands. -/
theorem hoistRanges_rangesOf (depth : Nat) (operands : List Expr) (nodes : Expr) :
    hoistRanges depth (nodesOnStack operands) (Expr.rangesOf operands) nodes =
      OptionT.lift (hoistFrom depth operands nodes) := by
  induction nodes generalizing operands with
  | nil => rfl
  | cons n rest ih =>
    cases hcond : n.isConditional with
    | false =>
      rw [hoistFrom_cons hcond, ← ih, nodesOnStack_pushNode, rangesOf_pushNode]
      cases n with
      | cond c => cases hcond
      | _ => rfl
    | true =>
      obtain ⟨c, rfl⟩ := exists_cond_of_isConditional hcond
      have hspill := spillRanges_rangesOf c.token operands []
      rw [List.append_nil] at hspill
      rw [hoistRanges, hoistFrom, hspill]
      refine lift_map_bind fun spilled => lift_bind fun temp => lift_bind fun _ => ?_
      have hrest := ih ([.var c.token [temp] none] :: spilled)
      rw [Expr.rangesOf, nodesOnStack_cons, List.length_append] at hrest
      exact hrest

end ControlFlow

end FrontEnd
