import FrontEnd.Compilation.Require
import FrontEnd.Diagnostic.Report

/-!
# The command

What the command `ebc` does with its arguments: it compiles a file and the modules
that the file asks for, and lists their functions, or it reports why it cannot. The
texts of modules are an argument here.
-/

namespace FrontEnd.Command

open Compilation (Module Registry Source Sources)

/-- What a run of the command leaves behind. -/
structure Outcome where
  code : Nat
  out : String
  err : String
  deriving DecidableEq, Repr

/-- A run that fails with a message. -/
def failure (message : String) : Outcome := ⟨1, "", message ++ "\n"⟩

/-- The functions that each call of an expression may mean. -/
def callsInExpr (e : Expr) : List (List FunctionRef) :=
  e.filterMap fun
    | .call _ _ _ candidates => some candidates
    | _ => none

mutual

/-- The functions that each call of a statement may mean. -/
def callsInStatement : Statement → List (List FunctionRef)
  | .declare _ _ _ value _ | .assign _ _ value | .eval _ value | .ret _ value =>
    callsInExpr value
  | .cond (.mk _ condition onTrue onFalse _ _) =>
    callsInExpr condition ++ callsInBlock onTrue ++ callsInBlock onFalse
  | .loop _ condition body => callsInExpr condition ++ callsInBlock body
  | .exit _ _ | .next _ => []

/-- The functions that each call of a block may mean. -/
def callsInBlock : List Statement → List (List FunctionRef)
  | [] => []
  | s :: rest => callsInStatement s ++ callsInBlock rest

end

/-- The line about a function. -/
def functionLine (f : Function) : String :=
  let calls := callsInBlock f.body
  let name := f.uniqueName.getD f.name
  let candidates := calls.flatten.length
  s!"  {name} ({f.locals.length} locals, {calls.length} calls, {candidates} candidates)\n"

/-- The lines about a module. -/
def moduleLines (m : Module) : String :=
  s!"module {m.path.toText}\n" ++ String.join ((functionsOf m.items).map functionLine)

/-- The configuration that the arguments ask for. There must be one argument. -/
def plan (args : List String) : Except Outcome Configuration :=
  match args with
  | [file] =>
    match Configuration.ofFile (.ofText file) with
    | .ok c => .ok c
    | .error d => .error (failure d.summary)
  | _ => .error (failure "Usage: ebc <file>")

/-- What a failed compilation is reported as. The source line is shown if the file is known. -/
def failureReport (r : Registry) (d : Diagnostic) : Outcome :=
  match r.sourceOf? d with
  | some source => failure (d.report source)
  | none => failure d.summary

/-- Compiles and lists the functions of all modules. -/
def build (c : Configuration) (sources : Sources) : Outcome :=
  match Compilation.compileEntry sources c.entry .empty with
  | .ok _ r => ⟨0, String.join (r.modules.map moduleLines), ""⟩
  | .error d r => failureReport r d

/-- Runs the command. -/
def run (args : List String) (sources : Configuration → Sources) : Outcome :=
  match plan args with
  | .error o => o
  | .ok c => build c (sources c)

/-- The module whose text a compilation lacks, if it has not been looked up yet. -/
def wanted? (c : Configuration) (loaded : List (ModulePath × Source)) : Option ModulePath :=
  match Compilation.compileEntry (.ofLoaded loaded) c.entry .empty with
  | .error ⟨.moduleNotFound path, _⟩ _ => some (.ofText path)
  | _ => none

end FrontEnd.Command
