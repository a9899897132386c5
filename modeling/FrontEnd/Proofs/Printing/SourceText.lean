import FrontEnd.Grammar.Item
import FrontEnd.Proofs.Printing.Pieces
import FrontEnd.Proofs.Tree.Postfix

/-!
# Canonical source text

The text that a tree is written as: a statement on each line, with a parenthesis around
every operator and its operands, and the suffix of every integer literal. A tree is
printable if some source reads as it: its paths are names, its literals are no doubles,
its expressions are in postfix order, and nothing is set that later stages set.
-/

namespace FrontEnd

open Printing (Piece isPath write)
open Token (Keyword Mark Suffix)

/-- The suffix that integer literals of a type are written with. -/
def ValueType.integerSuffix? : ValueType → Option Suffix
  | number => some .none
  | integer => some .i
  | unsigned => some .u
  | i8 => some .i8
  | i16 => some .i16
  | i32 => some .i32
  | i64 => some .i64
  | u8 => some .u8
  | u16 => some .u16
  | u32 => some .u32
  | u64 => some .u64
  | _ => none

/-- The mark that an operator is written with. -/
def Operator.mark : Operator → Mark
  | neg | sub => .dash
  | not => .not
  | inv | div => .slash
  | mul => .star
  | mod => .percent
  | add => .plus
  | lsh => .shiftLeft
  | rsh => .shiftRight
  | lt => .less
  | gt => .greater
  | leq => .lessEqual
  | geq => .greaterEqual
  | eq => .equal
  | neq => .notEqual
  | band => .ampersand
  | xor => .caret
  | bor => .pipe
  | and => .and
  | or => .or

namespace Printing

/-- The pieces of a type's name. -/
def typePieces (type : ValueType) : List Piece := [.name [type.toText]]

/-- Lists of pieces with commas between them. -/
def commaSeparated (args : List (List Piece)) : List Piece := [Piece.mark .comma].intercalate args

/-- An operator with its operands, in parentheses. -/
def application (o : Operator) : List (List Piece) → List Piece
  | [l, r] => .mark .openParen :: l ++ .mark o.mark :: r ++ [.mark .closeParen]
  | args => .mark .openParen :: .mark o.mark :: args.flatten ++ [.mark .closeParen]

/-- A name with arguments, or with parameters. -/
def call (path : List String) (args : List (List Piece)) : List Piece :=
  .name path :: .mark .openParen :: commaSeparated args ++ [.mark .closeParen]

end Printing

open Printing (typePieces commaSeparated application call)

mutual

/-- A node with what its operands are written as. -/
def Node.pieces (args : List (List Piece)) : Node → List Piece
  | .int _ value type => [.number value (type.integerSuffix?.getD .none)]
  | .float _ _ _ => []
  | .bool _ value => [.keyword (if value then .trueKw else .falseKw)]
  | .var _ path _ => [.name path]
  | .op _ operator => application operator args
  | .call _ path _ _ => call path args
  | .cond c => .keyword .ifKw :: c.pieces

/-- An expression after some operands, of which the stack holds what they are written as. -/
def Expr.piecesFrom (stack : List (List Piece)) : List Node → List Piece
  | [] => stack.reverse.flatten
  | n :: rest =>
    Expr.piecesFrom (n.pieces (stack.take n.operands).reverse :: stack.drop n.operands) rest

/-- A conditional after its `if`. -/
def Conditional.pieces : Conditional → List Piece
  | .mk _ condition onTrue onFalse _ _ =>
    Expr.piecesFrom [] condition ++ .mark .openCurly :: .lineEnd :: Block.pieces onTrue ++
      .mark .closeCurly :: Block.elsePieces onFalse

/-- The case of a conditional that does not hold. -/
def Block.elsePieces : List Statement → List Piece
  | [] => []
  | [.cond c] => .keyword .elseKw :: .keyword .ifKw :: c.pieces
  | s :: rest =>
    .keyword .elseKw :: .mark .openCurly :: .lineEnd :: s.pieces ++ Block.pieces rest ++
      [.mark .closeCurly]

/-- A statement, with the end of its line. -/
def Statement.pieces : Statement → List Piece
  | .declare _ name type value _ =>
    .name [name] :: .mark .colon :: (type.map typePieces).getD [] ++
      (if value.isEmpty then [] else .mark .assign :: Expr.piecesFrom [] value) ++ [.lineEnd]
  | .assign _ target value =>
    .name target.path :: .mark .assign :: Expr.piecesFrom [] value ++ [.lineEnd]
  | .eval _ value => Expr.piecesFrom [] value ++ [.lineEnd]
  | .ret _ value => .keyword .returnKw :: Expr.piecesFrom [] value ++ [.lineEnd]
  | .cond c => .keyword .ifKw :: c.pieces ++ [.lineEnd]
  | .loop _ condition body =>
    .keyword .whileKw :: Expr.piecesFrom [] condition ++
      .mark .openCurly :: .lineEnd :: Block.pieces body ++ [.mark .closeCurly, .lineEnd]
  | .exit _ amount => [.keyword .breakKw, .mark .star, .number amount .none, .lineEnd]
  | .next _ => [.keyword .continueKw, .lineEnd]

/-- Statements, each on lines of its own. -/
def Block.pieces : List Statement → List Piece
  | [] => []
  | s :: rest => s.pieces ++ Block.pieces rest

end

/-- A parameter with its type. -/
def Param.pieces (p : Param) : List Piece := .name [p.name] :: .mark .colon :: typePieces p.type

/-- The word before an item that other modules may use. -/
def Printing.visibility (isPublic : Bool) : List Piece :=
  if isPublic then [.keyword .pubKw] else []

/-- A function, with the end of its last line. -/
def Function.pieces (f : Function) : List Piece :=
  .keyword .fnKw :: call [f.name] (f.params.map Param.pieces) ++
    .mark .colon :: typePieces f.returnType ++
      .mark .openCurly :: .lineEnd :: Block.pieces f.body ++ [.mark .closeCurly, .lineEnd]

/-- A global, with the end of its line. -/
def Global.pieces (g : Global) : List Piece :=
  .keyword (if g.isMutable then .globalKw else .constKw) :: .name [g.name] :: .mark .colon ::
    typePieces g.type ++ [.lineEnd]

/-- The names that an import selects, if there are some. -/
def Import.selectionPieces (i : Import) : List Piece :=
  if i.selected.isEmpty then []
  else .mark .dot :: .mark .openBracket ::
    commaSeparated (i.selected.map fun s => [.name [s.2]]) ++ [.mark .closeBracket]

/-- An item, with the end of its last line. -/
def Item.pieces : Item → List Piece
  | function f => Printing.visibility f.isPublic ++ f.pieces
  | global g => Printing.visibility g.isPublic ++ g.pieces
  | imports i => .keyword .importKw :: .name i.target.segments :: i.selectionPieces ++ [.lineEnd]
  | submodule s => [.keyword .modKw, .name [s.name], .lineEnd]

/-- The canonical text of a module. -/
def sourceText (items : List Item) : String := write (items.flatMap Item.pieces)

/-- A conditional that stands alone reads as a statement of its own. -/
def Expr.isLoneConditional : Expr → Bool
  | [.cond _] => true
  | _ => false

mutual

/-- Whether a node is as a source may have written it. -/
def Node.isPrintable : Node → Bool
  | .int _ value type => value < Token.integerBound && type.integerSuffix?.isSome
  | .float _ _ _ => false
  | .bool _ _ | .op _ _ => true
  | .var _ path binding => isPath path && binding.isNone
  | .call _ path _ candidates => isPath path && candidates.isEmpty
  | .cond c => c.isPrintable

/-- Whether all nodes are as a source may have written them. -/
def Expr.arePrintable : List Node → Bool
  | [] => true
  | n :: rest => n.isPrintable && Expr.arePrintable rest

/-- Whether a conditional is as a source may have written it. -/
def Conditional.isPrintable : Conditional → Bool
  | .mk _ condition onTrue onFalse trueReturns falseReturns =>
    Expr.IsComplete condition && Expr.arePrintable condition && Block.isPrintable onTrue &&
      Block.isPrintable onFalse && !trueReturns && !falseReturns

/-- Whether a statement is as a source may have written it. -/
def Statement.isPrintable : Statement → Bool
  | .declare _ name type value slot =>
    isPath [name] && type.all (· ∈ ValueType.named) &&
      (value.isEmpty || Expr.IsComplete value) && Expr.arePrintable value && slot.isNone
  | .assign _ target value =>
    isPath target.path && target.binding.isNone && Expr.IsComplete value &&
      Expr.arePrintable value
  | .eval _ value =>
    Expr.IsComplete value && Expr.arePrintable value && !Expr.isLoneConditional value
  | .ret _ value => (value.isEmpty || Expr.IsComplete value) && Expr.arePrintable value
  | .cond c => c.isPrintable
  | .loop _ condition body =>
    Expr.IsComplete condition && Expr.arePrintable condition && Block.isPrintable body
  | .exit _ amount => amount < Token.integerBound
  | .next _ => true

/-- Whether all statements are as a source may have written them. -/
def Block.isPrintable : List Statement → Bool
  | [] => true
  | s :: rest => s.isPrintable && Block.isPrintable rest

end

/-- Whether a parameter is as a source may have written it. -/
def Param.isPrintable (p : Param) : Bool := isPath [p.name] && p.type ∈ ValueType.named

/-- Whether a function is as a source may have written it. -/
def Function.isPrintable (f : Function) : Bool :=
  isPath [f.name] && f.params.all Param.isPrintable && f.params.length ≤ Grammar.maxParameters &&
    f.returnType ∈ ValueType.named && f.index = 0 && f.uniqueName.isNone && f.locals.isEmpty &&
      Block.isPrintable f.body

/-- Whether an item is as a source may have written it. -/
def Item.isPrintable : Item → Bool
  | function f => f.isPrintable
  | global g => isPath [g.name] && g.type ∈ ValueType.named && g.uniqueName.isNone
  | imports i => isPath i.target.segments && i.selected.all fun s => isPath [s.2]
  | submodule s => isPath [s.name]

mutual

/-- The node without its place in the source. -/
def Node.withoutTokens : Node → Node
  | .int _ value type => .int 0 value type
  | .float _ value type => .float 0 value type
  | .bool _ value => .bool 0 value
  | .var _ path binding => .var 0 path binding
  | .op _ operator => .op 0 operator
  | .call _ path arity candidates => .call 0 path arity candidates
  | .cond c => .cond c.withoutTokens

/-- The nodes without their places in the source. -/
def Expr.withoutTokens : List Node → List Node
  | [] => []
  | n :: rest => n.withoutTokens :: Expr.withoutTokens rest

/-- The conditional without its place in the source. -/
def Conditional.withoutTokens : Conditional → Conditional
  | .mk _ condition onTrue onFalse trueReturns falseReturns =>
    .mk 0 (Expr.withoutTokens condition) (Block.withoutTokens onTrue)
      (Block.withoutTokens onFalse) trueReturns falseReturns

/-- The statement without its place in the source. -/
def Statement.withoutTokens : Statement → Statement
  | .declare _ name type value slot => .declare 0 name type (Expr.withoutTokens value) slot
  | .assign _ target value => .assign 0 ⟨0, target.path, target.binding⟩ (Expr.withoutTokens value)
  | .eval _ value => .eval 0 (Expr.withoutTokens value)
  | .ret _ value => .ret 0 (Expr.withoutTokens value)
  | .cond c => .cond c.withoutTokens
  | .loop _ condition body => .loop 0 (Expr.withoutTokens condition) (Block.withoutTokens body)
  | .exit _ amount => .exit 0 amount
  | .next _ => .next 0

/-- The statements without their places in the source. -/
def Block.withoutTokens : List Statement → List Statement
  | [] => []
  | s :: rest => s.withoutTokens :: Block.withoutTokens rest

end

@[simp]
theorem Expr.withoutTokens_nil : Expr.withoutTokens [] = [] := by rw [Expr.withoutTokens]

@[simp]
theorem Expr.withoutTokens_cons (n : Node) (rest : Expr) :
    Expr.withoutTokens (n :: rest) = n.withoutTokens :: Expr.withoutTokens rest := by
  rw [Expr.withoutTokens]

@[simp]
theorem Expr.withoutTokens_append (e e' : Expr) :
    Expr.withoutTokens (e ++ e') = Expr.withoutTokens e ++ Expr.withoutTokens e' := by
  induction e with
  | nil => simp
  | cons n rest ih => simp [ih]

/-- The parameter without its place in the source. -/
def Param.withoutToken (p : Param) : Param := { p with token := 0 }

/-- The item without its place in the source. -/
def Item.withoutTokens : Item → Item
  | function f =>
    function { f with
      token := 0, params := f.params.map Param.withoutToken,
      body := Block.withoutTokens f.body }
  | global g => global { g with token := 0 }
  | imports i => imports { i with token := 0, selected := i.selected.map fun s => (0, s.2) }
  | submodule s => submodule { s with token := 0 }

end FrontEnd
