import FrontEnd.Compilation.Linking
import FrontEnd.ControlFlow.Normalize
import FrontEnd.Grammar.Item
import FrontEnd.ShortCircuit
import FrontEnd.Token.Scan

/-!
# Compiling modules

A module is compiled when it is first asked for, and the module that asks waits for
it. So modules are compiled depth first, each once, and one that is asked for while it
is still waiting itself closes a cycle.
-/

namespace FrontEnd.Compilation

open Text (Position)

/-- A result, or a failure. -/
def orFail {α : Type} : Except Diagnostic α → Compile α
  | .ok a => return a
  | .error d => throw d

/-- A result, or a failure at a token of a file. -/
def orFault {α : Type} (buffer : Token.Buffer) : Except Fault α → Compile α
  | .ok a => return a
  | .error f => throw (buffer.locate f)

/-- Links the items of a new module. -/
def linkModule (site : Site) (items : List Item) : Compile Module := fun registry =>
  match Link.linkItems site items ⟨registry, .empty, .closed⟩ with
  | .ok items s => .ok ⟨site.own, items, s.symbols⟩ s.registry
  | .error d s => .error d s.registry

/-- Compiles a registered module. `require` compiles the modules that it asks for. A file at which
this fails stays in progress. -/
def compileModule (require : ModulePath → Position → Compile Unit) (path : ModulePath) :
    Compile Unit := do
  match (← get).search? path with
  | none => throw ⟨.moduleNotFound path.toText, .null⟩
  | some file =>
    modify (·.start path)
    let buffer ← orFail (Token.Buffer.scan file.name file.text)
    let items ← orFault buffer (Grammar.items buffer.tokens)
    let (items, _) := ShortCircuit.lowerItems items
    let items ← orFault buffer (ControlFlow.normalize items)
    let module ← linkModule ⟨path, buffer, require⟩ items
    modify (·.finish path buffer module)

/-- Makes sure that a module is compiled, where `compile` compiles a registered one. -/
def requireWith (sources : Sources) (compile : ModulePath → Compile Unit) (path : ModulePath)
    (position : Position) : Compile Unit := do
  match (← get).search? path with
  | some file =>
    match file.state with
    | .finished => return
    | .inProgress => throw ⟨.circularDependency path.toText, position⟩
    | .ready => compile path
  | none =>
    match sources.load path with
    | none => throw ⟨.moduleNotFound path.toText, position⟩
    | some source =>
      modify (·.register path source)
      compile path

/-- Makes sure that a module is compiled, with at most `depth` modules waiting for one another. More
than there are would mean that one waits for itself. -/
def requireFrom (sources : Sources) : Nat → ModulePath → Position → Compile Unit
  | 0, path, position =>
    requireWith sources (fun path => throw ⟨.circularDependency path.toText, position⟩) path position
  | depth + 1, path, position =>
    requireWith sources (compileModule (requireFrom sources depth)) path position

/-- Makes sure that a module is compiled. The position is the one that asks for it. -/
def require (sources : Sources) (path : ModulePath) (position : Position) : Compile Unit :=
  fun registry => requireFrom sources (sources.bound + registry.files.length) path position registry

/-- Compiles the module to start with, and all that it asks for. -/
def compileEntry (sources : Sources) (path : ModulePath) : Compile Unit :=
  require sources path .null

end FrontEnd.Compilation
