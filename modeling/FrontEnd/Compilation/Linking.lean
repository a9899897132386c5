import FrontEnd.Compilation.Registry
import FrontEnd.Names.Scopes

/-!
# Linking

Declares the items of a module and binds every name in its functions. All items are
declared, and the modules that they ask for compiled, before any body is looked at,
so a body may use what stands below it. A dotted name may ask for a further module
on the way.
-/

namespace FrontEnd.Compilation

open Names (Symbols Scopes)
open Text (Position)

/-- A computation that may compile modules. -/
abbrev Compile := EStateM Diagnostic Registry

/-- What linking changes: the files, the names of the module that is linked, and the scopes of the
function that is linked. -/
structure Linking where
  registry : Registry
  symbols : Symbols
  scopes : Scopes

/-- A computation that links a part of a module. -/
abbrev Link := EStateM Diagnostic Linking

/-- What linking a module depends on. -/
structure Site where
  /-- The path of the module that is linked. -/
  own : ModulePath
  buffer : Token.Buffer
  /-- Compiles a module if that is still to be done; the position is the one that asks for it. -/
  require : ModulePath → Position → Compile Unit

namespace Link

/-- Fails at a token of the module. -/
def fail {α : Type} (site : Site) (token : Nat) (cause : Cause) : Link α :=
  throw (site.buffer.locate ⟨token, cause⟩)

/-- Fails because a name stands for nothing. -/
def unresolved {α : Type} (site : Site) (token : Nat) (path : List String) : Link α :=
  fail site token (.unresolvedIdentifier (joinDots path))

/-- Runs a computation on the files alone. -/
def onRegistry {α : Type} (x : Compile α) : Link α := fun s =>
  match x s.registry with
  | .ok a registry => .ok a { s with registry }
  | .error d registry => .error d { s with registry }

/-- Changes the names of the module. -/
def modifySymbols (change : Symbols → Symbols) : Link Unit :=
  modify fun s => { s with symbols := change s.symbols }

/-- Runs a computation in a scope of its own. -/
def inScope {α : Type} (x : Link α) : Link α := do
  modify fun s => { s with scopes := s.scopes.descend }
  let a ← x
  modify fun s => { s with scopes := s.scopes.ascend }
  return a

/-- Declares a local, or fails at its token. -/
def declareLocal (site : Site) (token : Nat) (name : String) (type : Option ValueType)
    (isParam : Bool) : Link Nat := do
  match (← get).scopes.declare? name type isParam with
  | some (slot, scopes) =>
    modify fun s => { s with scopes }
    return slot
  | none => fail site token (.variableAlreadyDeclared name)

/-- Compiles a module if needed, and makes it reachable by an alias. -/
def importModule (site : Site) (target handle : ModulePath) (token : Nat) : Link Unit := do
  onRegistry (site.require target (site.buffer.position token))
  modifySymbols (·.addImport handle target)

/-- The module that the first segments of a dotted name stand for. One that has no such alias yet is
imported under its own path. -/
def targetModule (site : Site) (leading : List String) (token : Nat) : Link ModulePath := do
  match (← get).symbols.target? ⟨leading⟩ with
  | some target => return target
  | none =>
    importModule site ⟨leading⟩ ⟨leading⟩ token
    return ⟨leading⟩

/-- The names of a module: those of the linked one as far as they are declared, those of another one
once it is finished. -/
def symbolsOf (site : Site) (path : ModulePath) : Link Symbols := do
  let s ← get
  if path = site.own then return s.symbols
  else return ((s.registry.module? path).map Module.symbols).getD .empty

/-- Binds a variable. A single name is a local or a global of the module itself, a dotted one is a
global of the module that it names, and of another module only public ones count. -/
def bindVariable (site : Site) (token : Nat) (path : List String) : Link Binding := do
  match path.getLast? with
  | none => unresolved site token path
  | some name =>
    if path.dropLast.isEmpty then
      let s ← get
      match s.scopes.find? name, s.symbols.global? name with
      | some slot, _ => return .slot slot
      | none, some g => return .global g.ref
      | none, none => unresolved site token path
    else
      let target ← targetModule site path.dropLast token
      let symbols ← symbolsOf site target
      match symbols.global? name with
      | some g =>
        if target = site.own then return .global g.ref
        else if g.isPublic then
          modifySymbols (·.addExternal g.ref)
          return .global g.ref
        else unresolved site token path
      | none => unresolved site token path

/-- The functions that a call may mean, by name and number of arguments. -/
def bindCall (site : Site) (token : Nat) (path : List String) (arity : Nat) :
    Link (List FunctionRef) := do
  match path.getLast? with
  | none => unresolved site token path
  | some name =>
    let candidates ←
      if path.dropLast.isEmpty then
        pure ((← get).symbols.functionsOf name arity)
      else do
        let target ← targetModule site path.dropLast token
        let symbols ← symbolsOf site target
        pure ((symbols.functionsOf name arity).filter fun f => target = site.own || f.isPublic)
    if candidates.isEmpty then unresolved site token path
    else return candidates.map (·.ref)

mutual

/-- Binds the name of a node, or the names in it if it is a conditional. -/
def linkNode (site : Site) : Node → Link Node
  | .var token path _ => do
    return .var token path (some (← bindVariable site token path))
  | .call token path arity _ => do
    return .call token path arity (← bindCall site token path arity)
  | .cond c => do
    return .cond (← linkConditional site c)
  | n => return n

/-- Binds the names of an expression, from left to right. -/
def linkExpr (site : Site) : List Node → Link (List Node)
  | [] => return []
  | n :: rest => do
    let n ← linkNode site n
    return n :: (← linkExpr site rest)

/-- Binds the names of a conditional. -/
def linkConditional (site : Site) : Conditional → Link Conditional
  | .mk token condition onTrue onFalse trueReturns falseReturns => do
    let condition ← linkExpr site condition
    let onTrue ← inScope (linkBlock site onTrue)
    let onFalse ← inScope (linkBlock site onFalse)
    return .mk token condition onTrue onFalse trueReturns falseReturns

/-- Binds the names of a statement: first those of its expression, then the one that it declares or
assigns, and then those in its blocks. -/
def linkStatement (site : Site) : Statement → Link Statement
  | .declare token name type value _ => do
    let value ← linkExpr site value
    let slot ← declareLocal site token name type false
    return .declare token name type value (some slot)
  | .assign token target value => do
    let value ← linkExpr site value
    let binding ← bindVariable site target.token target.path
    return .assign token { target with binding := some binding } value
  | .eval token value => do
    return .eval token (← linkExpr site value)
  | .ret token value => do
    return .ret token (← linkExpr site value)
  | .cond c => do
    return .cond (← linkConditional site c)
  | .loop token condition body => do
    let condition ← linkExpr site condition
    return .loop token condition (← inScope (linkBlock site body))
  | .exit token amount => return .exit token amount
  | .next token => return .next token

/-- Binds the names of a block in the scope that is open. -/
def linkBlock (site : Site) : List Statement → Link (List Statement)
  | [] => return []
  | s :: rest => do
    let s ← linkStatement site s
    return s :: (← linkBlock site rest)

end

/-- Declares parameters in the scope that is open. -/
def declareParams (site : Site) : List Param → Link Unit
  | [] => return
  | p :: rest => do
    discard <| declareLocal site p.token p.name (some p.type) true
    declareParams site rest

/-- Binds the names of a function. -/
def linkFunction (site : Site) (f : Function) : Link Function := do
  modify fun s => { s with scopes := s.scopes.start }
  declareParams site f.params
  let body ← linkBlock site f.body
  let (locals, scopes) := (← get).scopes.finish
  modify fun s => { s with scopes }
  return { f with body, locals }

/-- Requires that a module offers the names that an import selects. -/
def checkSelected (site : Site) (target : ModulePath) : List (Nat × String) → Link Unit
  | [] => return
  | (token, name) :: rest => do
    match (← get).registry.module? target with
    | some m =>
      if !m.symbols.exportsName name then unresolved site token (target.segments ++ [name])
    | none => unresolved site token (target.segments ++ [name])
    checkSelected site target rest

/-- Declares an item, or makes the module that it asks for reachable. -/
def declareItem (site : Site) : Item → Link Item
  | .imports i => do
    importModule site i.target i.target i.token
    checkSelected site i.target i.selected
    return .imports i
  | .submodule s => do
    importModule site (site.own.child s.name) (.single s.name) s.token
    return .submodule s
  | .global g => do
    match (← get).symbols.declareGlobal? site.own g.name g.type g.isMutable g.isPublic with
    | none => fail site g.token (.globalAlreadyDeclared g.name)
    | some (ref, symbols) =>
      modify fun s => { s with symbols }
      return .global { g with uniqueName := some ref.uniqueName }
  | .function f => do
    match (← get).symbols.declareFunction? site.own f.name f.arity f.isPublic with
    | none => fail site f.token (.functionAlreadyDeclared f.name f.arity)
    | some (ref, symbols) =>
      modify fun s => { s with symbols }
      return .function { f with index := ref.index, uniqueName := some ref.uniqueName }

/-- Declares items in order. -/
def declareItems (site : Site) : List Item → Link (List Item)
  | [] => return []
  | i :: rest => do
    let i ← declareItem site i
    return i :: (← declareItems site rest)

/-- Binds the names in the functions among some items. -/
def linkBodies (site : Site) : List Item → Link (List Item)
  | [] => return []
  | i :: rest => do
    let i ← match i with
      | .function f => Item.function <$> linkFunction site f
      | i => pure i
    return i :: (← linkBodies site rest)

/-- Declares the items of a module, which can name itself by its own path, and binds the names in its
functions. -/
def linkItems (site : Site) (items : List Item) : Link (List Item) := do
  modifySymbols (·.addImport site.own site.own)
  linkBodies site (← declareItems site items)

end Link

end FrontEnd.Compilation
