import FrontEnd.Diagnostic.Basic
import FrontEnd.Proofs.Tree.Locals

/-!
# Lexical scoping

What each local name of a function stands for by the rules of lexical scoping. Parameters
and the statements at the top of a body share a scope, and each block inside is a scope of
its own. A declaration can be seen after its own value to the end of its block, and hides
those of the same name further out. A scope is a function from names to slots and is handed
on, so that nothing is to be undone at the end of a block. Slots are numbered in the order
in which locals are declared, wherever they stand.
-/

namespace FrontEnd

/-- What can be seen at a place. -/
structure LexicalScope where
  /-- The slot of the local that a name stands for. -/
  slot? : String → Option Nat
  /-- The names that have been declared in the block itself. -/
  own : List String

namespace LexicalScope

/-- Nothing can be seen. -/
def empty : LexicalScope := ⟨fun _ => none, []⟩

/-- The scope at the start of a block inside. -/
def nested (σ : LexicalScope) : LexicalScope := { σ with own := [] }

/-- A name stands for a new local from here on. -/
def declare (σ : LexicalScope) (name : String) (slot : Nat) : LexicalScope :=
  ⟨fun other => if other = name then some slot else σ.slot? other, name :: σ.own⟩

/-- Declares a local, if the block has none of this name yet. -/
def declaration (σ : LexicalScope) (token : Nat) (name : String) (type : Option ValueType)
    (slot : Nat) : Except Fault (List LocalSite) :=
  if name ∈ σ.own then throw ⟨token, .variableAlreadyDeclared name⟩
  else return [.declared token name type (some slot)]

/-- A name without a dot stands for the local that can be seen, or else for a global. -/
def use (σ : LexicalScope) (globals : String → Option GlobalRef) (token : Nat) (path : List String) :
    Except Fault (List LocalSite) :=
  match path with
  | [name] =>
    match σ.slot? name, globals name with
    | some slot, _ => return [.used token name (some (.slot slot))]
    | none, some ref => return [.used token name (some (.global ref))]
    | none, none => throw ⟨token, .unresolvedIdentifier name⟩
  | _ => return []

/-- A name with a dot is no matter of scopes. -/
theorem use_of_ne (σ : LexicalScope) (globals : String → Option GlobalRef) (token : Nat)
    {path : List String} (h : path.length ≠ 1) : σ.use globals token path = .ok [] := by
  match path with
  | [] | _ :: _ :: _ => rfl
  | [_] => exact absurd rfl h

/-- The scope after parameters, of which the first gets this slot. -/
def withParams (σ : LexicalScope) (slot : Nat) : List Param → Except Fault LexicalScope
  | [] => return σ
  | p :: rest =>
    if p.name ∈ σ.own then throw ⟨p.token, .variableAlreadyDeclared p.name⟩
    else (σ.declare p.name slot).withParams (slot + 1) rest

/-- The scope after a statement, where `next` is the first slot that is free before it. -/
def after (σ : LexicalScope) (next : Nat) : Statement → LexicalScope
  | .declare _ name _ value _ => σ.declare name (next + (variablesOf (Expr.localSites value)).length)
  | _ => σ

end LexicalScope

mutual

/-- What the local names of a node stand for. -/
def Node.resolve (globals : String → Option GlobalRef) (σ : LexicalScope) (next : Nat) :
    Node → Except Fault (List LocalSite)
  | .var token path _ => σ.use globals token path
  | .cond c => c.resolve globals σ next
  | .int .. | .float .. | .bool .. | .op .. | .call .. => return []

/-- What the local names of an expression stand for. -/
def Expr.resolve (globals : String → Option GlobalRef) (σ : LexicalScope) (next : Nat) :
    List Node → Except Fault (List LocalSite)
  | [] => return []
  | n :: rest => do
    let sites ← n.resolve globals σ next
    let sites' ← Expr.resolve globals σ (next + (variablesOf n.localSites).length) rest
    return sites ++ sites'

/-- What the local names of a conditional stand for. -/
def Conditional.resolve (globals : String → Option GlobalRef) (σ : LexicalScope) (next : Nat) :
    Conditional → Except Fault (List LocalSite)
  | .mk _ condition onTrue onFalse _ _ => do
    let sites ← Expr.resolve globals σ next condition
    let next := next + (variablesOf (Expr.localSites condition)).length
    let sites' ← Block.resolve globals σ.nested next onTrue
    let next := next + (variablesOf (Block.localSites onTrue)).length
    let sites'' ← Block.resolve globals σ.nested next onFalse
    return sites ++ sites' ++ sites''

/-- What the local names of a statement stand for. -/
def Statement.resolve (globals : String → Option GlobalRef) (σ : LexicalScope) (next : Nat) :
    Statement → Except Fault (List LocalSite)
  | .declare token name type value _ => do
    let sites ← Expr.resolve globals σ next value
    let sites' ← σ.declaration token name type (next + (variablesOf (Expr.localSites value)).length)
    return sites ++ sites'
  | .assign _ target value => do
    let sites ← Expr.resolve globals σ next value
    let sites' ← σ.use globals target.token target.path
    return sites ++ sites'
  | .eval _ value | .ret _ value => Expr.resolve globals σ next value
  | .cond c => c.resolve globals σ next
  | .loop _ condition body => do
    let sites ← Expr.resolve globals σ next condition
    let next := next + (variablesOf (Expr.localSites condition)).length
    let sites' ← Block.resolve globals σ.nested next body
    return sites ++ sites'
  | .exit .. | .next .. => return []

/-- What the local names of a block stand for. -/
def Block.resolve (globals : String → Option GlobalRef) (σ : LexicalScope) (next : Nat) :
    List Statement → Except Fault (List LocalSite)
  | [] => return []
  | s :: rest => do
    let sites ← s.resolve globals σ next
    let next' := next + (variablesOf s.localSites).length
    let sites' ← Block.resolve globals (σ.after next s) next' rest
    return sites ++ sites'

end

/-- What the local names of a function stand for, or the first of them that stands for nothing or is
declared twice. -/
def Function.resolve (globals : String → Option GlobalRef) (f : Function) :
    Except Fault (List LocalSite) := do
  let σ ← LexicalScope.empty.withParams 0 f.params
  Block.resolve globals σ f.params.length f.body

end FrontEnd
