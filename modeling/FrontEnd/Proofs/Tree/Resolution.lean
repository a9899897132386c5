import FrontEnd.Tree.Item

/-!
# Resolved names

What is required of each variable and each call of a tree, at any depth. Then every
declaration has a slot, and every variable, target and call is as required.
-/

namespace FrontEnd

/-- A requirement on variables and on calls. -/
structure Resolution where
  allowsVariable : List String → Option Binding → Prop
  allowsCall : List String → Nat → List FunctionRef → Prop

/-- What one resolution allows, another one allows too. -/
structure Resolution.Implies (R S : Resolution) : Prop where
  allowsVariable : ∀ path binding, R.allowsVariable path binding → S.allowsVariable path binding
  allowsCall : ∀ path arity candidates,
    R.allowsCall path arity candidates → S.allowsCall path arity candidates

mutual

def Node.Resolved (R : Resolution) : Node → Prop
  | .var _ path binding => R.allowsVariable path binding
  | .call _ path arity candidates => R.allowsCall path arity candidates
  | .cond c => c.Resolved R
  | _ => True

def Expr.Resolved (R : Resolution) : List Node → Prop
  | [] => True
  | n :: rest => n.Resolved R ∧ Expr.Resolved R rest

def Conditional.Resolved (R : Resolution) : Conditional → Prop
  | .mk _ condition onTrue onFalse _ _ =>
    Expr.Resolved R condition ∧ Block.Resolved R onTrue ∧ Block.Resolved R onFalse

def Statement.Resolved (R : Resolution) : Statement → Prop
  | .declare _ _ _ value slot => Expr.Resolved R value ∧ slot.isSome = true
  | .assign _ target value => Expr.Resolved R value ∧ R.allowsVariable target.path target.binding
  | .eval _ value | .ret _ value => Expr.Resolved R value
  | .cond c => c.Resolved R
  | .loop _ condition body => Expr.Resolved R condition ∧ Block.Resolved R body
  | .exit _ _ | .next _ => True

def Block.Resolved (R : Resolution) : List Statement → Prop
  | [] => True
  | s :: rest => s.Resolved R ∧ Block.Resolved R rest

end

mutual

theorem Node.Resolved.mono {R S : Resolution} (h : R.Implies S) :
    (n : Node) → n.Resolved R → n.Resolved S
  | .var _ path binding, hn => h.allowsVariable path binding hn
  | .call _ path arity candidates, hn => h.allowsCall path arity candidates hn
  | .cond c, hn => Conditional.Resolved.mono h c hn
  | .int _ _ _, _ | .float _ _ _, _ | .bool _ _, _ | .op _ _, _ => trivial

theorem Expr.Resolved.mono {R S : Resolution} (h : R.Implies S) :
    (e : List Node) → Expr.Resolved R e → Expr.Resolved S e
  | [], _ => trivial
  | n :: rest, ⟨hn, hrest⟩ => ⟨Node.Resolved.mono h n hn, Expr.Resolved.mono h rest hrest⟩

theorem Conditional.Resolved.mono {R S : Resolution} (h : R.Implies S) :
    (c : Conditional) → c.Resolved R → c.Resolved S
  | .mk _ condition onTrue onFalse _ _, ⟨hc, ht, hf⟩ =>
    ⟨Expr.Resolved.mono h condition hc, Block.Resolved.mono h onTrue ht,
      Block.Resolved.mono h onFalse hf⟩

theorem Statement.Resolved.mono {R S : Resolution} (h : R.Implies S) :
    (s : Statement) → s.Resolved R → s.Resolved S
  | .declare _ _ _ value _, ⟨hv, hs⟩ => ⟨Expr.Resolved.mono h value hv, hs⟩
  | .assign _ target value, ⟨hv, ht⟩ =>
    ⟨Expr.Resolved.mono h value hv, h.allowsVariable target.path target.binding ht⟩
  | .eval _ value, hv | .ret _ value, hv => Expr.Resolved.mono h value hv
  | .cond c, hc => Conditional.Resolved.mono h c hc
  | .loop _ condition body, ⟨hc, hb⟩ =>
    ⟨Expr.Resolved.mono h condition hc, Block.Resolved.mono h body hb⟩
  | .exit _ _, _ | .next _, _ => trivial

theorem Block.Resolved.mono {R S : Resolution} (h : R.Implies S) :
    (b : List Statement) → Block.Resolved R b → Block.Resolved S b
  | [], _ => trivial
  | s :: rest, ⟨hs, hrest⟩ => ⟨Statement.Resolved.mono h s hs, Block.Resolved.mono h rest hrest⟩

end

end FrontEnd
