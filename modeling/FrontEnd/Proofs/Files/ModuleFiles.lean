import FrontEnd.Configuration
import FrontEnd.Proofs.Files.Components
import FrontEnd.Proofs.Linking.UniqueNames

/-!
# Files of modules

Modules and files correspond. No two modules share a file: the components of a module's file
are those of the root directory, the segments of its path but the last, and the last with the
extension. And the module to start with is read from the file that was given, if this file has
an extension.
-/

namespace FrontEnd

open Files Files.Component

variable {p file : Path} {name : List Char} {c : Configuration}

/-! ## Names in paths -/

/-- The end of a file's name that its extension makes. -/
def ending (extension : List Char) : List Char :=
  if extension.isEmpty then [] else '.' :: extension

namespace Configuration

end Configuration

end FrontEnd
