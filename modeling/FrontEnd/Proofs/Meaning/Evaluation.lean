import FrontEnd.Proofs.Meaning.Basic

/-!
# Running programs

An expression in postfix order puts its operands on a stack, not yet evaluated, and a
node combines those that it takes; so a short circuit is a computation that is never
run. A block has the value of its last statement, and a conditional that of the block
it runs. Every loop may take `turns` turns, and a run that needs more is exhausted:
programs that agree for every number of turns agree on all runs, those that never end
and what they do on the way included.
-/

namespace FrontEnd.Meaning.Interpretation

variable {α σ : Type} (I : Interpretation α σ) (order : Order) (turns : Nat)

mutual

/-- A node and its operands, the first one first. -/
def node : Node → List (Run α σ (Value α)) → Run α σ (Value α)
  | .int _ value type, _ => return I.int value type
  | .float _ value type, _ => return I.float value type
  | .bool _ value, _ => return .bool value
  | .var _ path _, _ => return I.read path (← get)
  | .op _ o, operands => I.operator order o operands
  | .call _ path _ _, operands => do I.invoke path (← inOrder operands)
  | .cond c, _ => conditional c

/-- The operands on a stack after some nodes, if there are enough of them. The last one comes
first. -/
def stack (operands : List (Run α σ (Value α))) :
    List Node → Option (List (Run α σ (Value α)))
  | [] => some operands
  | n :: rest =>
    if operands.length < n.operands then none
    else
      stack (node n (operands.take n.operands).reverse :: operands.drop n.operands) rest

/-- A conditional, which has the value of the block that it runs. -/
def conditional : Conditional → Run α σ (Value α)
  | .mk _ condition onTrue onFalse _ _ => do
    if ← asBool (← single (stack [] condition)) then blockFrom I.void onTrue
    else blockFrom I.void onFalse

/-- A statement. Only one that is an expression or a conditional has a value of its own. -/
def statement : Statement → Run α σ (Value α)
  | .declare _ name type value _ => do
    let v ← optional value (single (stack [] value))
    modify (I.declare name type v)
    return I.void
  | .assign _ target value => do
    let v ← single (stack [] value)
    modify (I.write target.path v)
    return I.void
  | .eval _ value => single (stack [] value)
  | .ret _ value => do
    throw (.ret (← optional value (single (stack [] value))))
  | .cond c => conditional c
  | .loop _ condition body => do
    loop turns (single (stack [] condition)) (blockFrom I.void body)
    return I.void
  | .exit _ amount => throw (.exit amount)
  | .next _ => throw .next

/-- The statements of a block after one with the given value. -/
def blockFrom (last : Value α) : List Statement → Run α σ (Value α)
  | [] => return last
  | s :: rest => do blockFrom (← statement s) rest

end

/-- An expression. -/
def expr (e : Expr) : Run α σ (Value α) := single (I.stack order turns [] e)

/-- A block, which has the value of its last statement. -/
def block (b : Block) : Run α σ (Value α) := I.blockFrom order turns I.void b

/-- The body of a function. One that returns a value returns the value of its body. -/
def function (f : Function) : Run α σ Unit := do
  let v ← I.block order turns f.body
  if f.returnType.isVoid then return () else throw (.ret (some v))

theorem stack_cond (xs : List (Run α σ (Value α))) (c : Conditional) (rest : Expr) :
    I.stack order turns xs (.cond c :: rest) =
      I.stack order turns (I.conditional order turns c :: xs) rest := by
  rw [stack, if_neg (show ¬ xs.length < (Node.cond c).operands from Nat.not_lt_zero _), node]
  rfl

/-- A declaration with a value evaluates it first. -/
theorem statement_declare {value : Expr} (h : value ≠ []) (token : Nat) (name : String)
    (type : Option ValueType) (slot : Option Nat) :
    I.statement order turns (.declare token name type value slot) = (do
      let v ← I.expr order turns value
      modify (I.declare name type (some v))
      return I.void) := by
  rw [statement, optional, if_neg (by simpa using h), map_eq_pure_bind, bind_assoc]
  rfl

/-- A return with a value evaluates it first. -/
theorem statement_ret {value : Expr} (h : value ≠ []) (token : Nat) :
    I.statement order turns (.ret token value) = (do
      let v ← I.expr order turns value
      throw (.ret (some v))) := by
  rw [statement, optional, if_neg (by simpa using h), map_eq_pure_bind, bind_assoc]
  rfl

theorem blockFrom_singleton (last : Value α) (s : Statement) :
    I.blockFrom order turns last [s] = I.statement order turns s := by
  simp [blockFrom]

theorem blockFrom_append (last : Value α) (b b' : Block) :
    I.blockFrom order turns last (b ++ b') =
      I.blockFrom order turns last b >>= fun v => I.blockFrom order turns v b' := by
  induction b generalizing last with
  | nil => simp [blockFrom]
  | cons s rest ih =>
    rw [List.cons_append, blockFrom, blockFrom, bind_assoc]
    exact bind_congr fun v => ih v

/-- A small language: the variables whose names are listed are true, a call is recorded and gives
true, and the other values are numbers. -/
def recorded (true : List (List String)) : Interpretation Nat (List (List String)) where
  int value _ := .other value
  float _ _ := .other 0
  void := .other 0
  read path _ := .bool (path ∈ true)
  write _ _ s := s
  declare _ _ _ s := s
  operate
    | .not, [.bool b] => .bool !b
    | .and, [.bool a, .bool b] => .bool (a && b)
    | .or, [.bool a, .bool b] => .bool (a || b)
    | _, _ => .other 0
  call path _ s := (some (.bool Bool.true), s ++ [path])
  operate_not _ := rfl
  operate_and _ _ := rfl
  operate_or _ _ := rfl

end FrontEnd.Meaning.Interpretation
