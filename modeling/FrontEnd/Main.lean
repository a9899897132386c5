import FrontEnd.Command

/-!
# The executable

Reads source files as the compilation asks for them, runs the command, and writes
what it leaves behind.
-/

namespace FrontEnd

open Compilation (Source Sources)

/-- The text of a module's file, if it can be read. -/
def readModule (c : Configuration) (m : ModulePath) : IO (Option Source) := do
  let file := (c.moduleFile m).toText
  try
    return some ⟨file, ← IO.FS.readFile file⟩
  catch _ =>
    return none

/-- Reads files until the compilation lacks none that can be read. -/
partial def readModules (c : Configuration) (loaded : List (ModulePath × Source)) :
    IO (List (ModulePath × Source)) := do
  match Command.wanted? c loaded with
  | none => return loaded
  | some m =>
    match ← readModule c m with
    | none => return loaded
    | some source => readModules c ((m, source) :: loaded)

end FrontEnd

open FrontEnd in
def main (args : List String) : IO UInt32 := do
  let outcome ← match Command.plan args with
    | .error o => pure o
    | .ok c => do
      let loaded ← readModules c []
      pure (Command.build c (.ofLoaded loaded))
  IO.print outcome.out
  IO.eprint outcome.err
  return outcome.code.toUInt32
