import FrontEnd.Tree.Item

/-!
# Values and runs

What a program means is left open where the language leaves it open: an
`Interpretation` says how variables read and change a store, what a call does to it,
and what operators give. Only `!`, `&&` and `||` are fixed, and only on booleans. The
store holds all that a run can change or show, the trace of its calls included.
-/

namespace FrontEnd.Meaning

/-- A value. Nothing is said about values that are not booleans. -/
inductive Value (α : Type)
  | bool (b : Bool)
  | other (a : α)
  deriving DecidableEq, Repr

/-- How a run ends early. -/
inductive Ending (α : Type)
  | ret (value : Option (Value α))
  /-- As many enclosing loops as given are left. -/
  | exit (loops : Nat)
  /-- The enclosing loop goes on with its next turn. -/
  | next
  /-- A call has ended the program. -/
  | halted
  /-- A loop needs more turns than it may take. -/
  | exhausted
  /-- There is no value where one is needed, or none that is a boolean. -/
  | fault
  deriving DecidableEq, Repr

/-- What the language leaves open. -/
structure Interpretation (α σ : Type) where
  int : Nat → ValueType → Value α
  float : Double → ValueType → Value α
  /-- The value of a block that ends without one. -/
  void : Value α
  read : List String → σ → Value α
  write : List String → Value α → σ → σ
  /-- Makes a local variable, which may start without a value. -/
  declare : String → Option ValueType → Option (Value α) → σ → σ
  operate : Operator → List (Value α) → Value α
  /-- What a call gives, nothing if it ends the program, and the store that it leaves. -/
  call : List String → List (Value α) → σ → Option (Value α) × σ
  operate_not : ∀ b, operate .not [.bool b] = .bool !b
  operate_and : ∀ a b, operate .and [.bool a, .bool b] = .bool (a && b)
  operate_or : ∀ a b, operate .or [.bool a, .bool b] = .bool (a || b)

/-- A computation on a store that may end early. -/
abbrev Run (α σ : Type) := EStateM (Ending α) σ

/-- How logical operators treat their right operand. -/
inductive Order
  /-- It is evaluated as that of any other operator. -/
  | strict
  /-- It is evaluated only if the left one does not decide. -/
  | shortCircuit
  /-- As with `shortCircuit`, and it is a fault if an operand is not a boolean, or would not be one
  if it were evaluated. -/
  | checked
  deriving DecidableEq, Repr

variable {α σ β γ : Type}

theorem bind_apply (x : Run α σ β) (f : β → Run α σ γ) (s : σ) :
    (x >>= f) s = match x s with
      | .ok a s => f a s
      | .error e s => .error e s := by
  change EStateM.bind x f s = _
  unfold EStateM.bind
  cases x s <;> rfl

theorem bind_ok {x : Run α σ β} {s s' : σ} {a : β} (h : x s = .ok a s') (f : β → Run α σ γ) :
    (x >>= f) s = f a s' := by
  rw [bind_apply, h]

theorem bind_error {x : Run α σ β} {s s' : σ} {e : Ending α} (h : x s = .error e s')
    (f : β → Run α σ γ) : (x >>= f) s = .error e s' := by
  rw [bind_apply, h]

/-- Two ways to go on need agree only on what a computation can give. -/
theorem bind_congr_ok {x : Run α σ β} {f g : β → Run α σ γ}
    (h : ∀ s a s', x s = .ok a s' → f a s' = g a s') : x >>= f = x >>= g := by
  funext s
  rw [bind_apply, bind_apply]
  cases hx : x s with
  | ok a s' => exact h s a s' hx
  | error e s' => rfl

theorem discard_bind (x : Run α σ β) (f : β → Run α σ γ) :
    discard (x >>= f) = x >>= fun a => discard (f a) := by
  change (fun _ => ()) <$> (x >>= f) = x >>= fun a => (fun _ => ()) <$> f a
  rw [map_bind]

/-- A value that must be a boolean. -/
def asBool : Value α → Run α σ Bool
  | .bool b => return b
  | .other _ => throw .fault

/-- A fault if a computation would have one or give what is not a boolean. Nothing else is left of
it. -/
def probe (x : Run α σ (Value α)) : Run α σ Unit := fun s =>
  match x s with
  | .ok (.other _) _ | .error .fault _ => .error .fault s
  | _ => .ok () s

/-- The values of some operands, from left to right. -/
def inOrder : List (Run α σ (Value α)) → Run α σ (List (Value α))
  | [] => return []
  | x :: rest => do
    let v ← x
    return v :: (← inOrder rest)

/-- The boolean with which the left operand of a logical operator decides its value. -/
def decider (o : Operator) : Bool := o == .or

/-- A logical operator that evaluates its right operand only if it must. -/
def logical (o : Operator) (left right : Run α σ (Value α)) : Run α σ (Value α) := do
  let b ← asBool (← left)
  if b = decider o then return .bool b else right

/-- A logical operator that does the same, but has a fault where an operand is no boolean. -/
def logicalChecked (o : Operator) (left right : Run α σ (Value α)) : Run α σ (Value α) := do
  let b ← asBool (← left)
  if b = decider o then
    probe right
    return .bool b
  else return .bool (← asBool (← right))

/-- The end of a turn of a loop: whether another one follows. -/
def endTurn (x : Run α σ Bool) : Run α σ Bool := fun s =>
  match x s with
  | .error (.exit loops) s => if loops ≤ 1 then .ok false s else .error (.exit (loops - 1)) s
  | .error .next s => .ok true s
  | result => result

/-- One turn of a loop. An exit or a `next` in the condition is one of this loop too. -/
def turn (condition body : Run α σ (Value α)) : Run α σ Bool :=
  endTurn do
    if ← asBool (← condition) then
      discard body
      return true
    else return false

/-- A loop that may take a number of turns. -/
def loop : Nat → Run α σ (Value α) → Run α σ (Value α) → Run α σ Unit
  | 0, _, _ => throw .exhausted
  | turns + 1, condition, body => do
    if ← turn condition body then loop turns condition body

/-- The only operand that is left on a stack. -/
def single : Option (List (Run α σ (Value α))) → Run α σ (Value α)
  | some [x] => x
  | _ => throw .fault

/-- The value of an expression that may be left out, given how it is evaluated. -/
def optional (e : Expr) (x : Run α σ (Value α)) : Run α σ (Option (Value α)) :=
  if e.isEmpty then return none else some <$> x

namespace Interpretation

variable (I : Interpretation α σ)

/-- An operator and its operands. -/
def operator (order : Order) (o : Operator) (operands : List (Run α σ (Value α))) :
    Run α σ (Value α) :=
  match operands with
  | [left, right] =>
    match order, o.isLogical with
    | .shortCircuit, true => logical o left right
    | .checked, true => logicalChecked o left right
    | _, _ => I.operate o <$> inOrder [left, right]
  | operands => I.operate o <$> inOrder operands

theorem operator_of_length_ne_two (order : Order) (o : Operator)
    {operands : List (Run α σ (Value α))} (h : operands.length ≠ 2) :
    I.operator order o operands = I.operate o <$> inOrder operands := by
  match operands with
  | [] | [_] | _ :: _ :: _ :: _ => rfl
  | [_, _] => exact absurd rfl h

theorem operator_strict (o : Operator) (operands : List (Run α σ (Value α))) :
    I.operator .strict o operands = I.operate o <$> inOrder operands := by
  match operands with
  | [] | [_] | [_, _] | _ :: _ :: _ :: _ => rfl

/-- An operator that is not logical evaluates its operands. -/
theorem operator_of_not_isLogical {o : Operator} (h : o.isLogical = false) (order : Order)
    (operands : List (Run α σ (Value α))) :
    I.operator order o operands = I.operate o <$> inOrder operands := by
  match operands with
  | [] | [_] | _ :: _ :: _ :: _ => rfl
  | [_, _] => cases order <;> simp [operator, h]

/-- Unless the left operand decides, the right one does. -/
theorem operate_logical {o : Operator} (h : o.isLogical = true) (a b : Bool) :
    I.operate o [.bool a, .bool b] = .bool (if a = decider o then a else b) := by
  cases o with
  | and => cases a <;> simp [I.operate_and, decider]
  | or => cases a <;> simp [I.operate_or, decider]
  | _ => cases h

/-- A call whose arguments are evaluated. -/
def invoke (path : List String) (arguments : List (Value α)) : Run α σ (Value α) := fun s =>
  match I.call path arguments s with
  | (some v, s) => .ok v s
  | (none, s) => .error .halted s

end Interpretation

end FrontEnd.Meaning
