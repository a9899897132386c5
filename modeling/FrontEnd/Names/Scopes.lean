import FrontEnd.Tree.Item

/-!
# Local scopes

The scopes that are open while a function is read, and all local slots that it has
declared so far. Closing a scope forgets names, but never a slot.
-/

namespace FrontEnd.Names

/-- The names of one block, with their slots. -/
abbrev Scope := List (String × Nat)

/-- Open scopes and local slots. -/
structure Scopes where
  /-- The open scopes, the innermost first. -/
  scopes : List Scope
  locals : List Variable
  deriving DecidableEq, Repr

namespace Scopes

/-- No scope is open. -/
def closed : Scopes := ⟨[], []⟩

/-- Starts a function, whose parameters share a scope with the top level of its body. -/
def start (_ : Scopes) : Scopes := ⟨[[]], []⟩

/-- Opens a scope. -/
def descend (s : Scopes) : Scopes := { s with scopes := [] :: s.scopes }

/-- Closes the innermost scope, if one is open. -/
def ascend (s : Scopes) : Scopes := { s with scopes := s.scopes.drop 1 }

/-- The number of open scopes. -/
def depth (s : Scopes) : Nat := s.scopes.length

/-- Ends a function: its slots, and no open scope. -/
def finish (s : Scopes) : List Variable × Scopes := (s.locals, closed)

/-- The slot of a name in the innermost scope that has it. -/
def find? (s : Scopes) (name : String) : Option Nat := s.scopes.findSome? (·.lookup name)

/-- A slot. -/
def local? (s : Scopes) (slot : Nat) : Option Variable := s.locals[slot]?

/-- Declares a name in the innermost scope, unless that has it already. Scopes further out do not
matter. -/
def declare? (s : Scopes) (name : String) (type : Option ValueType) (isParam : Bool) :
    Option (Nat × Scopes) :=
  match s.scopes with
  | [] => none
  | scope :: outer =>
    if (scope.lookup name).isSome then none
    else
      let slot := s.locals.length
      some (slot, ⟨((name, slot) :: scope) :: outer, s.locals ++ [⟨name, type, isParam⟩]⟩)

/-- A name is declared if some scope is open and the innermost one does not have it, and gets the
next slot. -/
theorem declare?_cases (s : Scopes) (name : String) (type : Option ValueType) (isParam : Bool) :
    (s.declare? name type isParam = none ∧
      ∀ scope outer, s.scopes = scope :: outer → (scope.lookup name).isSome) ∨
    (∃ scope outer, s.scopes = scope :: outer ∧ scope.lookup name = none ∧
      s.declare? name type isParam = some (s.locals.length,
        ⟨((name, s.locals.length) :: scope) :: outer,
          s.locals ++ [⟨name, type, isParam⟩]⟩)) := by
  obtain ⟨_ | ⟨scope, outer⟩, locals⟩ := s
  · exact .inl ⟨rfl, nofun⟩
  cases hlookup : scope.lookup name with
  | some slot =>
    refine .inl ⟨by simp [declare?, hlookup], ?_⟩
    rintro _ _ ⟨⟩
    rw [hlookup, Option.isSome_some]
  | none => exact .inr ⟨scope, outer, rfl, hlookup, by simp [declare?, hlookup]⟩

end Scopes

end FrontEnd.Names
