import FrontEnd.Tree.Basic

/-!
# Items

What a module is made of: functions, globals, imports and submodules. Their unique
names, and the local slots of functions, are filled in when names are declared and
bound.
-/

namespace FrontEnd

/-- A parameter of a function. -/
structure Param where
  token : Nat
  name : String
  type : ValueType
  deriving DecidableEq, Repr

/-- A local slot of a function. Parameters come first, then declarations in order. -/
structure Variable where
  name : String
  type : Option ValueType
  isParam : Bool
  deriving DecidableEq, Repr

/-- A function. -/
structure Function where
  token : Nat
  name : String
  isPublic : Bool
  params : List Param
  returnType : ValueType
  /-- How many functions of the same name are declared before this one. -/
  index : Nat
  uniqueName : Option String
  locals : List Variable
  body : Block

/-- The number of arguments that a call must have. -/
def Function.arity (f : Function) : Nat := f.params.length

/-- A global variable, or a constant if it is not mutable. -/
structure Global where
  token : Nat
  name : String
  type : ValueType
  isMutable : Bool
  isPublic : Bool
  uniqueName : Option String
  deriving DecidableEq, Repr

/-- A request for another module. `selected` lists names that the other module must offer. -/
structure Import where
  token : Nat
  target : ModulePath
  selected : List (Nat × String)
  deriving DecidableEq, Repr

/-- A request for a module below the one that holds the request. -/
structure Submodule where
  token : Nat
  name : String
  deriving DecidableEq, Repr

/-- An item of a module. -/
inductive Item
  | function (f : Function)
  | global (g : Global)
  | imports (i : Import)
  | submodule (s : Submodule)

namespace Item

/-- The function that an item is. -/
def function? : Item → Option Function
  | function f => some f
  | _ => none

end Item

/-- The functions among some items, in order. -/
def functionsOf (items : List Item) : List Function := items.filterMap Item.function?

/-- The first function with this name and arity. -/
def findFunction? (items : List Item) (name : String) (arity : Nat) : Option Function :=
  (functionsOf items).find? fun f => f.name == name && f.arity == arity

end FrontEnd
