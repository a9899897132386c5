import FrontEnd.Tree.Item

/-!
# Sites of local names

The declarations of a tree and the names without a dot that it reads and assigns, in the
order in which they are evaluated, each with what it has been bound to. Only such names
can be those of locals.
-/

namespace FrontEnd

/-- A place in a body where a local is declared, or where a name may be that of a local. -/
inductive LocalSite
  | declared (token : Nat) (name : String) (type : Option ValueType) (slot : Option Nat)
  | used (token : Nat) (name : String) (binding : Option Binding)
  deriving DecidableEq, Repr

namespace LocalSite

/-- The site of a path: that of its name, unless it has a dot. -/
def ofPath (token : Nat) (path : List String) (binding : Option Binding) : List LocalSite :=
  match path with
  | [name] => [used token name binding]
  | _ => []

/-- The local that is declared, if that is what is done at a site. -/
def toVariable? : LocalSite → Option Variable
  | declared _ name type _ => some ⟨name, type, false⟩
  | used .. => none

theorem ofPath_of_ne {token : Nat} {path : List String} (h : path.length ≠ 1)
    (binding : Option Binding) : ofPath token path binding = [] := by
  match path with
  | [] | _ :: _ :: _ => rfl
  | [_] => exact absurd rfl h

end LocalSite

/-- The locals that are declared at some sites. -/
def variablesOf (sites : List LocalSite) : List Variable := sites.filterMap LocalSite.toVariable?

@[simp]
theorem variablesOf_nil : variablesOf [] = [] := rfl

@[simp]
theorem variablesOf_append (sites sites' : List LocalSite) :
    variablesOf (sites ++ sites') = variablesOf sites ++ variablesOf sites' :=
  List.filterMap_append

@[simp]
theorem variablesOf_ofPath (token : Nat) (path : List String) (binding : Option Binding) :
    variablesOf (LocalSite.ofPath token path binding) = [] := by
  match path with
  | [] | [_] | _ :: _ :: _ => rfl

mutual

/-- The sites in a node. -/
def Node.localSites : Node → List LocalSite
  | .var token path binding => LocalSite.ofPath token path binding
  | .cond c => c.localSites
  | .int .. | .float .. | .bool .. | .op .. | .call .. => []

/-- The sites in an expression. -/
def Expr.localSites : List Node → List LocalSite
  | [] => []
  | n :: rest => n.localSites ++ Expr.localSites rest

/-- The sites in a conditional. -/
def Conditional.localSites : Conditional → List LocalSite
  | .mk _ condition onTrue onFalse _ _ =>
    Expr.localSites condition ++ Block.localSites onTrue ++ Block.localSites onFalse

/-- The sites in a statement. A name is declared or assigned after the value has been read. -/
def Statement.localSites : Statement → List LocalSite
  | .declare token name type value slot => Expr.localSites value ++ [.declared token name type slot]
  | .assign _ target value =>
    Expr.localSites value ++ LocalSite.ofPath target.token target.path target.binding
  | .eval _ value | .ret _ value => Expr.localSites value
  | .cond c => c.localSites
  | .loop _ condition body => Expr.localSites condition ++ Block.localSites body
  | .exit .. | .next .. => []

/-- The sites in a block. -/
def Block.localSites : List Statement → List LocalSite
  | [] => []
  | s :: rest => s.localSites ++ Block.localSites rest

end

end FrontEnd
