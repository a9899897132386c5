import FrontEnd.Proofs.Runs.Cycles
import Mathlib.Data.List.Induction

/-!
# After a failure

A call that fails leaves the modules in progress that it was working on. A later call
takes them for modules that wait for one another, so it may blame a cycle where there is
none. Apart from that it blames real cycles only.
-/

namespace FrontEnd.Compilation

open Registry
open Relation (ReflTransGen TransGen)
open Text (Position)

variable {sources : Sources} {r r' : Registry} {path m : ModulePath} {position : Position}
  {d : Diagnostic} {requests : List (ModulePath × Position)}

/-- The files after some modules have been asked for on a new compiler, each by a call of its own. To
compile an entry is to ask for it at no position. -/
def filesAfterRequests (sources : Sources) (requests : List (ModulePath × Position)) : Registry :=
  filesAfter .empty (requests.map fun (path, position) => (sources, .require path position))

theorem filesAfterRequests_concat (requests : List (ModulePath × Position)) (path : ModulePath)
    (position : Position) : filesAfterRequests sources (requests ++ [(path, position)]) =
      remaining (require sources path position (filesAfterRequests sources requests)) := by
  unfold filesAfterRequests filesAfter
  rw [List.map_append, List.foldl_append]
  rfl

theorem Fails.loaded {depth : Nat} (hfails : Fails sources depth path position r d r')
    (h : r.Loaded sources) : r'.Loaded sources := by
  induction hfails with
  | waiting | missing => exact h
  | exhausted hoffers => exact h.offers hoffers
  | own hoffers _ hdone _ => exact hdone.loaded (h.start hoffers)
  | asked hoffers _ _ hdone _ ih => exact ih (hdone.loaded (h.start hoffers))

/-- A failed call leaves modules in progress that can be reached from the one asked for. -/
theorem Fails.waiting_or {depth : Nat} (hfails : Fails sources depth path position r d r')
    (hloaded : r.Loaded sources) (h : r'.Waiting m) :
    r.Waiting m ∨ ReflTransGen (Refers sources.load) path m := by
  induction hfails with
  | waiting | missing => exact .inl h
  | exhausted hoffers => exact .inl (hoffers.waiting_iff.mp h)
  | own hoffers _ hdone _ =>
    refine ((hoffers.waiting_completes hdone).mp h).imp_right ?_
    rintro rfl
    exact .refl
  | asked hoffers hparsed heq hdone _ ih =>
    have hq := heq ▸ List.mem_append_right _ List.mem_cons_self
    have hrefers := (refersAt_of_mem (hoffers.load_eq hloaded) hparsed hq).refers
    rcases ih (hdone.loaded (hloaded.start hoffers)) h with hw | hreach
    · refine ((hoffers.waiting_completes hdone).mp hw).imp_right ?_
      rintro rfl
      exact .refl
    · exact .inr (.head hrefers hreach)

theorem loaded_filesAfterRequests (sources : Sources) (requests : List (ModulePath × Position)) :
    (filesAfterRequests sources requests).Loaded sources := by
  induction requests using List.reverseRecOn with
  | nil => exact List.forall_mem_nil _
  | append_singleton before last ih =>
    rw [filesAfterRequests_concat]
    cases h : require sources last.1 last.2 (filesAfterRequests sources before) with
    | ok _ r =>
      obtain ⟨order, hcompletes⟩ := requireFrom_completes h
      exact hcompletes.loaded ih
    | error d r => exact (requireFrom_fails h).loaded ih

/-- A call has failed, and left a module in progress that can be reached from the one asked for. -/
def LeftInProgress (sources : Sources) (requests : List (ModulePath × Position)) (m : ModulePath) :
    Prop :=
  ∃ before path position after d r, requests = before ++ (path, position) :: after ∧
    require sources path position (filesAfterRequests sources before) = .error d r ∧
    r.Waiting m ∧ ReflTransGen (Refers sources.load) path m

theorem LeftInProgress.append (h : LeftInProgress sources requests m)
    (more : List (ModulePath × Position)) : LeftInProgress sources (requests ++ more) m := by
  obtain ⟨before, path, position, after, d, r, rfl, hfailed, hleft, hreach⟩ := h
  exact ⟨before, path, position, after ++ more, d, r, by simp, hfailed, hleft, hreach⟩

/-- Between calls a module is in progress only if an earlier call has failed and left it so. -/
theorem leftInProgress_of_waiting (h : (filesAfterRequests sources requests).Waiting m) :
    LeftInProgress sources requests m := by
  induction requests using List.reverseRecOn with
  | nil => exact absurd h not_waiting_empty
  | append_singleton before last ih =>
    rw [filesAfterRequests_concat] at h
    cases hrun : require sources last.1 last.2 (filesAfterRequests sources before) with
    | ok _ r =>
      rw [hrun] at h
      obtain ⟨order, hcompletes⟩ := requireFrom_completes hrun
      exact (ih (hcompletes.waiting_iff.mp h)).append _
    | error d r =>
      rw [hrun] at h
      rcases (requireFrom_fails hrun).waiting_or (loaded_filesAfterRequests sources before) h with
        hw | hreach
      · exact (ih hw).append _
      · exact ⟨before, last.1, last.2, [], d, r, rfl, hrun, h, hreach⟩

/-- After any calls, a call blames a circular dependency on a module only if this lies on a cycle that
can be reached from the module asked for and is closed at the place of the failure, or if an
earlier call has failed and left the module in progress. -/
theorem require_circularDependency (hbounded : sources.Bounded)
    (requests : List (ModulePath × Position)) {text : String}
    (h : require sources path position (filesAfterRequests sources requests) = .error d r)
    (hcause : d.cause = .circularDependency text) :
    ∃ m, m.toText = text ∧
      (CycleAt sources.load path m d.position ∨ LeftInProgress sources requests m) := by
  obtain ⟨known, hlength, hknown⟩ := hbounded
  have hloaded := loaded_filesAfterRequests sources requests
  -- The chain of this call starts empty, whatever earlier calls have left in progress.
  have hdepth : known.length ≤
      sources.bound + (filesAfterRequests sources requests).files.length + 0 := by
    omega
  obtain ⟨hw, htext, -⟩ | ⟨last, q, -, hat, htext, hw | ⟨hfrom, hto⟩⟩ :=
    (requireFrom_fails h).cycle hloaded hknown (chain_nil _) hdepth hcause
  · exact ⟨path, htext, .inr (leftInProgress_of_waiting hw)⟩
  · exact ⟨q.target, htext, .inr (leftInProgress_of_waiting hw)⟩
  · exact ⟨q.target, htext, .inl ⟨last, q, hfrom, hto, hat, rfl⟩⟩

/-- `main` imports a module that there is no text of. -/
def missingImport : Sources := .ofList [(⟨["main"]⟩, "import missing\nfn main() \x7b\x7d")]

theorem failure?_missingImport :
    failure? (compileEntry missingImport ⟨["main"]⟩
      (filesAfterRequests missingImport [(⟨["main"]⟩, .null)])) =
        some ⟨.circularDependency "main", .null⟩ := by
  decide +kernel

/-- The second attempt to compile `main` blames `main`, which an earlier call has left in progress. -/
theorem require_circularDependency_missingImport :
    ∃ m, m.toText = "main" ∧ (CycleAt missingImport.load ⟨["main"]⟩ m .null ∨
      LeftInProgress missingImport [(⟨["main"]⟩, .null)] m) := by
  obtain ⟨r, h⟩ := exists_of_failure? failure?_missingImport
  exact require_circularDependency (Sources.bounded_ofList _) _ h rfl

theorem refers_missingImport {a b : ModulePath} (h : Refers missingImport.load a b) :
    a = ⟨["main"]⟩ ∧ b = ⟨["missing"]⟩ := by
  obtain ⟨source, hload⟩ := h.exists_load
  obtain rfl := List.mem_singleton.mp (Sources.mem_of_load_ofList hload)
  have htargets : targetsOf missingImport.load ⟨["main"]⟩ = [⟨["missing"]⟩] := by decide +kernel
  rw [Refers, htargets] at h
  exact ⟨rfl, List.mem_singleton.mp h⟩

/-- The second attempt to compile `main` blames a cycle through `main`, but there is no cycle at all:
`main` was left in progress by the first attempt, which has not found the missing module. -/
theorem compileEntry_twice_missingImport :
    (∃ r, compileEntry missingImport ⟨["main"]⟩
      (filesAfterRequests missingImport [(⟨["main"]⟩, .null)]) =
        .error ⟨.circularDependency "main", .null⟩ r) ∧
    ∀ m, ¬TransGen (Refers missingImport.load) m m := by
  refine ⟨exists_of_failure? failure?_missingImport, fun m hcircle => ?_⟩
  obtain ⟨b, hfirst, hrest⟩ := TransGen.head'_iff.mp hcircle
  obtain ⟨rfl, rfl⟩ := refers_missingImport hfirst
  rcases ReflTransGen.cases_head hrest with heq | ⟨c, hnext, -⟩
  · exact absurd heq (by decide)
  · exact absurd (refers_missingImport hnext).1 (by decide)

end FrontEnd.Compilation
