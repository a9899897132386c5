import FrontEnd.Configuration
import FrontEnd.Files.Directory

/-!
# Sources

Where the text of a module comes from. Only finitely many modules have a source, and
the bound that says so also bounds how deeply modules can ask for one another.
-/

namespace FrontEnd.Compilation

/-- The text of a module, with the name that diagnostics show for it. -/
structure Source where
  name : String
  text : String
  deriving DecidableEq, Repr

/-- The texts of modules. No more than `bound` modules have one. -/
structure Sources where
  load : ModulePath → Option Source
  bound : Nat

namespace Sources

/-- The name of a module's text that comes from no file. -/
def nameOf (m : ModulePath) : String :=
  "/".intercalate m.segments ++ "." ++ String.ofList Configuration.usualExtension

/-- Texts that are given with their modules. The last text given for a module counts. -/
def ofList (texts : List (ModulePath × String)) : Sources where
  load m := (texts.reverse.find? (·.1 == m)).map fun (_, text) => ⟨nameOf m, text⟩
  bound := texts.length

/-- The files of a directory. -/
def ofDirectory (d : Files.Directory) (c : Configuration) : Sources where
  load m := (d.read? (c.moduleFile m)).map fun text => ⟨(c.moduleFile m).toText, text⟩
  bound := d.entries.length

/-- Sources that were looked up before. -/
def ofLoaded (sources : List (ModulePath × Source)) : Sources where
  load m := sources.lookup m
  bound := sources.length

end Sources

end FrontEnd.Compilation
