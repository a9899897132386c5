import FrontEnd.Proofs.Runs.Indexing

/-!
# Whole sessions

Whatever is called on a compiler, one call after the other, and whether the calls succeed
or not, the registry has gone through changes that keep it valid. So the files and the
index of their paths stay in step, and no file is lost or replaced.
-/

namespace FrontEnd.Compilation

open Text (Position)
open Registry

variable {d : Diagnostic}

/-- A call on a compiler. -/
inductive Call
  | register (path : ModulePath) (source : Source)
  | compileEntry (path : ModulePath)
  | require (path : ModulePath) (position : Position)

/-- What a call does. -/
def Call.run (sources : Sources) : Call → Compile Unit
  | register path source => modify (·.register path source)
  | compileEntry path => Compilation.compileEntry sources path
  | require path position => Compilation.require sources path position

/-- The files that are left, with a result or without. -/
def remaining : EStateM.Result Diagnostic Registry Unit → Registry
  | .ok _ r => r
  | .error _ r => r

/-- What has failed. -/
def failure? {α σ : Type} : EStateM.Result Diagnostic σ α → Option Diagnostic
  | .ok _ _ => none
  | .error d _ => some d

theorem exists_of_failure?_eq_none {x : EStateM.Result Diagnostic Registry Unit}
    (h : failure? x = none) : ∃ r, x = .ok () r := by
  cases x with
  | ok _ r => exact ⟨r, rfl⟩
  | error d r => cases h

theorem exists_of_failure? {α σ : Type} {x : EStateM.Result Diagnostic σ α}
    (h : failure? x = some d) : ∃ s, x = .error d s := by
  cases x with
  | ok _ s => cases h
  | error d' s =>
    cases h
    exact ⟨s, rfl⟩

/-- The files after a call, whether it succeeds or not. -/
def Call.filesAfter (sources : Sources) (call : Call) (r : Registry) : Registry :=
  remaining (call.run sources r)

/-- The files after some calls. Every call comes with the sources that it finds, since a loader need
not give the same text again. -/
def filesAfter (r : Registry) (calls : List (Sources × Call)) : Registry :=
  calls.foldl (fun r (sources, call) => call.filesAfter sources r) r

theorem Call.steps_require (sources : Sources) (path : ModulePath) (position : Position)
    (r : Registry) : r.Steps ((Call.require path position).filesAfter sources r) := by
  change r.Steps (remaining (Compilation.require sources path position r))
  cases h : Compilation.require sources path position r with
  | ok _ r' =>
    obtain ⟨order, hcompletes⟩ := requireFrom_completes h
    exact hcompletes.steps
  | error d r' => exact (requireFrom_fails h).steps

theorem Call.steps (sources : Sources) (call : Call) (r : Registry) :
    r.Steps (call.filesAfter sources r) := by
  cases call with
  | register path source =>
    change r.Steps (r.register path source)
    cases hs : r.search? path with
    | none => exact .single (.register hs source)
    | some f =>
      unfold Registry.register
      rw [hs]
  | compileEntry path => exact steps_require sources path .null r
  | require path position => exact steps_require sources path position r

theorem filesAfter_steps (r : Registry) (calls : List (Sources × Call)) :
    r.Steps (filesAfter r calls) := by
  induction calls generalizing r with
  | nil => exact .refl
  | cons call rest ih => exact (call.2.steps call.1 r).trans (ih _)

/-- **The registry stays valid.** After any calls on a new compiler, whatever has succeeded or
failed, every file has a path of its own and is what is found by it, also through an index that has
been kept by the same changes. A file holds its module and its tokens just if it is finished, and
the module is that of its path. Further calls keep all files in their places, with their names and
texts, and finished ones with all that they hold. -/
theorem filesAfter_valid (calls later : List (Sources × Call)) :
    (filesAfter .empty calls).Valid ∧ (filesAfter .empty calls).InStep ∧
      (filesAfter .empty calls).Keeps (filesAfter .empty (calls ++ later)) := by
  have hsteps := filesAfter_steps .empty calls
  have hvalid := (hsteps.valid valid_empty).1
  have hlater := ((filesAfter_steps (filesAfter .empty calls) later).valid hvalid).2
  refine ⟨hvalid, hsteps.inStep, ?_⟩
  rwa [filesAfter, filesAfter, List.foldl_append]

end FrontEnd.Compilation
