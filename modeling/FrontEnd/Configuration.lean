import FrontEnd.Diagnostic.Basic
import FrontEnd.Files.Path
import FrontEnd.Token.Pattern
import FrontEnd.Tree.ModulePath

/-!
# Configuration

Where the sources of modules are. The module `a.b.c` is read from the file
`a/b/c` below the root directory, with the configured extension.
-/

namespace FrontEnd

open Files (Path)
open Text (Position)

/-- A name without dots that a module may have. -/
def isModuleName (name : List Char) : Bool :=
  match name with
  | [] => false
  | c :: cs => Token.isNameStart c && cs.all Token.isNamePart

/-- Where the sources of modules are, and the module to start with. -/
structure Configuration where
  root : Path
  extension : List Char
  entry : ModulePath
  deriving DecidableEq, Repr

namespace Configuration

/-- The extension of source files that say nothing else. -/
def usualExtension : List Char := ['e', 'b']

/-- The directory that a path without directories is in. -/
def here : Path := ⟨['.']⟩

/-- The configuration that starts with the module `main` of this directory. -/
def standard : Configuration := ⟨here, usualExtension, .single "main"⟩

/-- The configuration that starts with a given file: other modules are next to it, and have its
extension. -/
def ofFile (file : Path) : Except Diagnostic Configuration :=
  let stem := file.stem?.getD []
  if isModuleName stem then
    let root := match file.parent? with
      | none => here
      | some parent => if parent.chars.isEmpty then here else parent
    .ok ⟨root, file.extension?.getD usualExtension, .single (String.ofList stem)⟩
  else .error ⟨.invalidModuleName (String.ofList stem), ⟨0, file.toText⟩⟩

/-- The file of a module. -/
def moduleFile (c : Configuration) (m : ModulePath) : Path :=
  (m.segments.foldl (fun path segment => path.push segment.toList) c.root).setExtension c.extension

end Configuration

end FrontEnd
