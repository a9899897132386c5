import FrontEnd.Compilation.Sources
import FrontEnd.Names.Symbols
import FrontEnd.Token.Basic
import FrontEnd.Tree.Item

/-!
# The registry

All files of a compilation, in the order in which they were first asked for. A file
is registered once, and its path finds it.
-/

namespace FrontEnd.Compilation

open Names (Symbols)

/-- A module: its items, and the names declared from them. -/
structure Module where
  path : ModulePath
  items : List Item
  symbols : Symbols

/-- How far a file has been compiled. -/
inductive FileState
  | ready
  /-- The file is being compiled, and may be waiting for others. -/
  | inProgress
  | finished

/-- The name of a state. -/
def FileState.name : FileState → String
  | ready => "Ready"
  | inProgress => "InProgress"
  | finished => "Finished"

/-- A file of a compilation. -/
structure File where
  path : ModulePath
  name : String
  text : String
  tokens? : Option Token.Buffer
  module? : Option Module
  state : FileState

namespace File

/-- A file as it is registered. -/
def ofSource (path : ModulePath) (source : Source) : File :=
  ⟨path, source.name, source.text, none, none, .ready⟩

/-- The file is being compiled from now on. What it holds is left as it is. -/
def start (f : File) : File := { f with state := .inProgress }

/-- The file has been compiled. Its tokens are kept only now, together with its module. -/
def finish (f : File) (tokens : Token.Buffer) (module : Module) : File :=
  { f with tokens? := some tokens, module? := some module, state := .finished }

@[simp]
theorem path_start (f : File) : f.start.path = f.path := rfl

@[simp]
theorem path_finish (f : File) (tokens : Token.Buffer) (module : Module) :
    (f.finish tokens module).path = f.path := rfl

end File

/-- The files of a compilation, in the order in which they were registered. -/
structure Registry where
  files : List File

namespace Registry

/-- No file is registered. -/
def empty : Registry := ⟨[]⟩

/-- The file of a module. -/
def search? (r : Registry) (path : ModulePath) : Option File := r.files.find? (·.path == path)

/-- Adds a file, unless the module has one already. -/
def register (r : Registry) (path : ModulePath) (source : Source) : Registry :=
  match r.search? path with
  | some _ => r
  | none => ⟨r.files ++ [.ofSource path source]⟩

/-- Changes the file of a module. -/
def update (r : Registry) (path : ModulePath) (change : File → File) : Registry :=
  ⟨r.files.map fun f => if f.path == path then change f else f⟩

/-- A module is being compiled from now on. -/
def start (r : Registry) (path : ModulePath) : Registry := r.update path File.start

/-- A module has been compiled. -/
def finish (r : Registry) (path : ModulePath) (tokens : Token.Buffer) (module : Module) :
    Registry :=
  r.update path (·.finish tokens module)

/-- The first file that diagnostics show under a name. -/
def findNamed? (r : Registry) (name : String) : Option File := r.files.find? (·.name == name)

/-- The text that a diagnostic points into. -/
def sourceOf? (r : Registry) (d : Diagnostic) : Option String :=
  (r.findNamed? d.position.file).map File.text

/-- The module of a path, which its file holds once it is finished. -/
def module? (r : Registry) (path : ModulePath) : Option Module :=
  (r.search? path).bind File.module?

/-- The finished modules. -/
def modules (r : Registry) : List Module := r.files.filterMap File.module?

/-- Every path of a file, each followed by the alias that is its last segment, without repeats. -/
def aliases (r : Registry) : List ModulePath :=
  r.files.foldl (fun seen f =>
    [f.path, .single (f.path.segments.getLastD "")].foldl
      (fun seen path => if path ∈ seen then seen else seen ++ [path]) seen) []

end Registry

end FrontEnd.Compilation
