import FrontEnd.Tree.Item

/-!
# Values that are needed

Which blocks give a value, and of which conditionals the value is needed. That of a
conditional in an expression is needed, except where the conditional is all of an
expression statement whose value nothing asks for. The value of a block is asked for
where the block is one of a needed conditional, or the body of a function that returns a
value; that of a conditional statement at the end of such a block is too.
-/

namespace FrontEnd

mutual

/-- Whether a statement at the end of a block gives it a value, or leaves it so that none is missing. -/
def Statement.givesValue : Statement → Bool
  | .eval .. | .ret .. | .exit .. | .next .. => true
  | .cond c => c.givesValue
  | .declare .. | .assign .. | .loop .. => false

/-- Whether both blocks give a value. An `else` that is not there or is empty gives none. -/
def Conditional.givesValue : Conditional → Bool
  | .mk _ _ onTrue onFalse _ _ => Block.givesValue onTrue && Block.givesValue onFalse

/-- Whether the last statement gives a value. -/
def Block.givesValue : List Statement → Bool
  | [] => false
  | [s] => s.givesValue
  | _ :: rest => Block.givesValue rest

end

mutual

/-- The conditionals of an expression, all of whose values are needed, and those inside of them whose
values are. -/
def Expr.needed : List Node → List Conditional
  | [] => []
  | .cond c :: rest => c :: c.needed true ++ Expr.needed rest
  | _ :: rest => Expr.needed rest

/-- The conditionals inside of one, whose own value is wanted or not, of which the value is needed. -/
def Conditional.needed (wanted : Bool) : Conditional → List Conditional
  | .mk _ condition onTrue onFalse _ _ =>
    Expr.needed condition ++ Block.needed wanted onTrue ++ Block.needed wanted onFalse

/-- The conditionals in a statement of which the value is needed. It is not for one that is all of a
statement whose value is not wanted. -/
def Statement.needed (wanted : Bool) : Statement → List Conditional
  | .declare _ _ _ value _ | .assign _ _ value | .ret _ value => Expr.needed value
  | .eval _ value =>
    match wanted, value with
    | false, [.cond c] => c.needed false
    | _, value => Expr.needed value
  | .cond c => c.needed wanted
  | .loop _ condition body => Expr.needed condition ++ Block.needed false body
  | .exit _ _ | .next _ => []

/-- The conditionals in a block of which the value is needed. That of the block is the value of its
last statement. -/
def Block.needed (wanted : Bool) : List Statement → List Conditional
  | [] => []
  | s :: rest => s.needed (wanted && rest.isEmpty) ++ Block.needed wanted rest

end

/-- The conditionals in a function of which the value is needed. That of its body is, if the function
returns a value. -/
def Function.neededConditionals (f : Function) : List Conditional :=
  Block.needed (!f.returnType.isVoid) f.body

theorem Expr.needed_cons {n : Node} (h : n.isConditional = false) (rest : Expr) :
    Expr.needed (n :: rest) = Expr.needed rest := by
  cases n with
  | cond c => cases h
  | _ => rw [Expr.needed]; simp

/-- No value of a conditional is needed where there is none. -/
theorem Expr.needed_of_not_containsConditional {e : Expr} (h : e.containsConditional = false) :
    Expr.needed e = [] := by
  induction e with
  | nil => rw [needed]
  | cons n rest ih =>
    rw [containsConditional, List.any_cons, Bool.or_eq_false_iff] at h
    rw [needed_cons h.1, ih h.2]

end FrontEnd
