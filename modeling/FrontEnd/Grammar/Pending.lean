import FrontEnd.Token.Basic
import FrontEnd.Tree.Basic

/-!
# Operators that wait for operands

The state of reading an expression: the nodes that are complete, in postfix order,
and a stack of operators and open parentheses that still wait for an operand or for
their end. `Progress.feed` is the effect of one token.
-/

namespace FrontEnd.Grammar

open Token (Kind Mark Keyword)

/-- What waits for something that is still to be read. -/
inductive Pending
  | op (operator : Operator) (token : Nat)
  /-- A parenthesis around a part of an expression. -/
  | group (paren : Nat)
  /-- The parenthesis of a call, with the number of commas so far. -/
  | call (token : Nat) (path : List String) (paren commas : Nat)
  deriving DecidableEq, Repr

/-- How far an expression has been read. -/
structure Progress where
  /-- The complete nodes, the last one first. -/
  output : List Node
  /-- What is pending, the innermost first. -/
  pending : List Pending
  /-- Whether an operand must come next. -/
  wantsOperand : Bool
  /-- Whether the last token opened a call, which may then be closed at once. -/
  justOpened : Bool

/-- What is wrong with a token of an expression. -/
inductive Complaint
  | missingOperand
  | missingOperator
  | mismatched
  | unexpected
  deriving DecidableEq, Repr

namespace Progress

/-- Nothing has been read. -/
def start : Progress := ⟨[], [], true, false⟩

/-- Whether anything has been read. -/
def isStarted (p : Progress) : Bool := !(p.output.isEmpty && p.pending.isEmpty)

/-- Whether an operand is missing should the expression end here. -/
def isOpen (p : Progress) : Bool := p.wantsOperand && p.isStarted

/-- The progress with a complete operand. -/
def operand (p : Progress) (n : Node) : Except Complaint Progress :=
  if p.wantsOperand then .ok ⟨n :: p.output, p.pending, false, false⟩
  else .error .missingOperator

/-- The progress with something pending that an operand must follow. -/
def opening (p : Progress) (pending : Pending) (justOpened : Bool) : Except Complaint Progress :=
  if p.wantsOperand then .ok ⟨p.output, pending :: p.pending, true, justOpened⟩
  else .error .missingOperator

/-- Completes the operators that wait above the innermost parenthesis. -/
def flushGroup (output : List Node) : List Pending → List Node × List Pending
  | .op operator token :: rest => flushGroup (.op token operator :: output) rest
  | pending => (output, pending)

/-- Completes the operators that have all their operands before `incoming`. -/
def flushFor (incoming : Operator) (output : List Node) :
    List Pending → List Node × List Pending
  | .op operator token :: rest =>
    if incoming.flushes operator then flushFor incoming (.op token operator :: output) rest
    else (output, .op operator token :: rest)
  | pending => (output, pending)

/-- The progress with an operator. Where an operand is wanted the operator must have a prefix form,
and `!` has no other. -/
def operator (p : Progress) (token : Nat) (o : Operator) : Except Complaint Progress :=
  let form : Except Complaint Operator :=
    if p.wantsOperand then
      match o.prefixForm? with
      | some form => .ok form
      | none => .error .missingOperand
    else if o = .not then .error .missingOperator
    else .ok o
  match form with
  | .error e => .error e
  | .ok o =>
    let (output, pending) := flushFor o p.output p.pending
    .ok ⟨output, .op o token :: pending, true, false⟩

/-- The progress with a comma, which stands between the arguments of a call. -/
def comma (p : Progress) : Except Complaint Progress :=
  if p.wantsOperand then .error .missingOperand
  else match flushGroup p.output p.pending with
    | (output, .call token path paren commas :: rest) =>
      .ok ⟨output, .call token path paren (commas + 1) :: rest, true, false⟩
    | _ => .error .mismatched

/-- The progress with a closing parenthesis. A call has one argument more than commas, unless it is
closed at once. -/
def close (p : Progress) : Except Complaint Progress :=
  if p.wantsOperand && !p.justOpened then .error .missingOperand
  else match flushGroup p.output p.pending with
    | (output, .group _ :: rest) => .ok ⟨output, rest, false, false⟩
    | (output, .call token path _ commas :: rest) =>
      let arity := if p.justOpened then 0 else commas + 1
      .ok ⟨.call token path arity [] :: output, rest, false, false⟩
    | _ => .error .mismatched

/-- The nodes of an expression that ends here, or the parenthesis that is still open. -/
def finish (output : List Node) : List Pending → Except Nat Expr
  | [] => .ok output.reverse
  | .op operator token :: rest => finish (.op token operator :: output) rest
  | .group paren :: _ | .call _ _ paren _ :: _ => .error paren

/-- The node of a number literal. -/
def literal (token : Nat) (n : Token.Numeral) : Node :=
  match n.number with
  | .int value => .int token value (.ofIntegerSuffix n.suffix)
  | .float value => .float token value (.ofFloatSuffix n.suffix)

/-- The progress with the token at `index`, for all tokens that are read one at a time: not for `if`,
and not for a name before a parenthesis. -/
def feed (p : Progress) (index : Nat) (shape : Token.Shape) : Except Complaint Progress :=
  match shape with
  | .numeral n => p.operand (literal index n)
  | .identifier path => p.operand (.var index path none)
  | .keyword .trueKw => p.operand (.bool index true)
  | .keyword .falseKw => p.operand (.bool index false)
  | .mark .openParen => p.opening (.group index) false
  | .mark .comma => p.comma
  | .mark .closeParen => p.close
  | .mark m => match Operator.ofMark? m with
    | some o => p.operator index o
    | none => .error .unexpected
  | _ => .error .unexpected

end Progress

end FrontEnd.Grammar
