import FrontEnd.Tree.ModulePath
import FrontEnd.Tree.ValueType

/-!
# The names of a module

What a module declares, which modules it can name and by which aliases, and which
globals of other modules it uses. Declarations are kept in the order in which they
were made.
-/

namespace FrontEnd.Names

/-- A function that a module declares. -/
structure FunctionSymbol where
  ref : FunctionRef
  isPublic : Bool
  deriving DecidableEq, Repr

/-- A global that a module declares. -/
structure GlobalSymbol where
  ref : GlobalRef
  type : ValueType
  isMutable : Bool
  isPublic : Bool
  deriving DecidableEq, Repr

/-- The names of a module. -/
structure Symbols where
  functions : List FunctionSymbol
  globals : List GlobalSymbol
  /-- Aliases with the modules that they stand for, the latest first. -/
  imports : List (ModulePath × ModulePath)
  /-- Globals of other modules, in the order of their first use. -/
  externals : List GlobalRef
  deriving DecidableEq, Repr

namespace Symbols

/-- The names of a module that declares nothing. -/
def empty : Symbols := ⟨[], [], [], []⟩

/-- The functions of a name that take a number of arguments. There is at most one. -/
def functionsOf (s : Symbols) (name : String) (arity : Nat) : List FunctionSymbol :=
  s.functions.filter fun f => f.ref.name == name && f.ref.arity == arity

/-- The number of functions of a name, of any arity. -/
def countNamed (s : Symbols) (name : String) : Nat :=
  s.functions.countP fun f => f.ref.name == name

/-- Whether there is a function of a name, or a public one if only those count. -/
def hasFunctionNamed (s : Symbols) (name : String) (publicOnly : Bool) : Bool :=
  s.functions.any fun f => f.ref.name == name && (f.isPublic || !publicOnly)

/-- The number of functions, of which each name may have several. -/
def functionCount (s : Symbols) : Nat := s.functions.length

/-- Declares a function, unless there is one of the same name and arity. Functions of one name are
numbered in the order of their declaration. -/
def declareFunction? (s : Symbols) (module : ModulePath) (name : String) (arity : Nat)
    (isPublic : Bool) : Option (FunctionRef × Symbols) :=
  if (s.functionsOf name arity).isEmpty then
    let ref : FunctionRef := ⟨module, name, arity, s.countNamed name⟩
    some (ref, { s with functions := s.functions ++ [⟨ref, isPublic⟩] })
  else none

/-- The global of a name. -/
def global? (s : Symbols) (name : String) : Option GlobalSymbol :=
  s.globals.find? (·.ref.name == name)

/-- Declares a global, unless there is one of the same name. -/
def declareGlobal? (s : Symbols) (module : ModulePath) (name : String) (type : ValueType)
    (isMutable isPublic : Bool) : Option (GlobalRef × Symbols) :=
  match s.global? name with
  | some _ => none
  | none =>
    let ref : GlobalRef := ⟨module, name⟩
    some (ref, { s with globals := s.globals ++ [⟨ref, type, isMutable, isPublic⟩] })

/-- Whether another module may import a name from this one. -/
def exportsName (s : Symbols) (name : String) : Bool :=
  (s.global? name).any GlobalSymbol.isPublic || s.hasFunctionNamed name true

/-- Makes a module reachable by an alias. A later alias hides an equal earlier one. -/
def addImport (s : Symbols) (handle target : ModulePath) : Symbols :=
  { s with imports := (handle, target) :: s.imports }

/-- The module that an alias stands for. -/
def target? (s : Symbols) (handle : ModulePath) : Option ModulePath :=
  (s.imports.find? (·.1 == handle)).map (·.2)

/-- Records the use of a global of another module. -/
def addExternal (s : Symbols) (ref : GlobalRef) : Symbols :=
  if ref ∈ s.externals then s else { s with externals := s.externals ++ [ref] }

end Symbols

end FrontEnd.Names
