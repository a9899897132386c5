/-!
# Paths and references

A module is named by the segments of its dotted path. References name an item of a
module, and their unique names tell items of all modules apart.
-/

namespace FrontEnd

/-- The segments of a text that dots cut. -/
def splitDots (text : String) : List String := (text.toList.splitOn '.').map String.ofList

/-- The segments joined by dots. -/
def joinDots (segments : List String) : String := ".".intercalate segments

/-- The path of a module. -/
structure ModulePath where
  segments : List String
  deriving DecidableEq, Repr, Inhabited

namespace ModulePath

/-- The path of one segment. -/
def single (name : String) : ModulePath := ⟨[name]⟩

/-- The path of a submodule. -/
def child (path : ModulePath) (name : String) : ModulePath := ⟨path.segments ++ [name]⟩

/-- Reads a dotted path. -/
def ofText (text : String) : ModulePath := ⟨splitDots text⟩

/-- The dotted form of a path. -/
def toText (path : ModulePath) : String := joinDots path.segments

end ModulePath

/-- A global variable or constant of a module. -/
structure GlobalRef where
  module : ModulePath
  name : String
  deriving DecidableEq, Repr

/-- The name that tells a global apart from all others. -/
def GlobalRef.uniqueName (r : GlobalRef) : String := s!"{r.module.toText}.{r.name}"

/-- A function of a module. Functions of one name differ in arity, and are numbered. -/
structure FunctionRef where
  module : ModulePath
  name : String
  arity : Nat
  /-- How many functions of the same name the module declares before this one. -/
  index : Nat
  deriving DecidableEq, Repr

/-- The name that tells a function apart from all others. -/
def FunctionRef.uniqueName (r : FunctionRef) : String :=
  s!"{r.module.toText}.{r.name}.{r.arity}.{r.index}"

/-- What a variable stands for: a local slot of its function, or a global. -/
inductive Binding
  | slot (index : Nat)
  | global (ref : GlobalRef)
  deriving DecidableEq, Repr

end FrontEnd
