import FrontEnd.Proofs.Runs.Sessions
import FrontEnd.Proofs.Runs.Walk

/-!
# The order of registration

On a new compiler a successful compilation registers the modules in depth-first order:
each module before those that it refers to, and all that can be reached from one
reference before the next reference is looked at. Nothing else is registered.
-/

namespace FrontEnd.Compilation

open Registry
open Relation (ReflTransGen)

variable {sources : Sources} {r r' r₁ : Registry} {path : ModulePath} {f : File}
  {wanted order : List ModulePath}

/-- The paths of all files, in the order of their registration. -/
def Registry.paths (r : Registry) : List ModulePath := r.files.map File.path

/-- All files hold what the sources say. -/
def Registry.Loaded (sources : Sources) (r : Registry) : Prop :=
  ∀ f ∈ r.files, sources.load f.path = some f.source

/-- No file has been registered without being compiled. -/
def Registry.Started (r : Registry) : Prop := ∀ f ∈ r.files, f.state ≠ .ready

/-- The module of a path is finished. -/
def Registry.HasFinished (r : Registry) (path : ModulePath) : Prop := ∃ m, r.module? path = some m

/-- Whatever a module has an alias for is finished. -/
def Registry.Linked (r : Registry) : Prop :=
  ∀ path m, r.module? path = some m → ∀ entry ∈ m.symbols.imports, r.HasFinished entry.2

namespace Registry

theorem search?_eq_none_iff : r.search? path = none ↔ path ∉ r.paths := by
  unfold search? paths
  rw [List.find?_eq_none]
  simp only [beq_iff_eq, List.mem_map, not_exists, not_and]

theorem mem_paths_of_search? (h : r.search? path = some f) : path ∈ r.paths := by
  by_contra hnot
  rw [search?_eq_none_iff.mpr hnot] at h
  cases h

theorem paths_start (r : Registry) (path : ModulePath) : (r.start path).paths = r.paths :=
  map_path_update File.path_start r path

theorem paths_finish (r : Registry) (path : ModulePath) (tokens : Token.Buffer) (m : Module) :
    (r.finish path tokens m).paths = r.paths :=
  map_path_update (fun f => f.path_finish tokens m) r path

theorem paths_register (h : r.search? path = none) (source : Source) :
    (r.register path source).paths = r.paths ++ [path] := by
  unfold paths
  rw [register_eq h, List.map_append]
  rfl

theorem Loaded.finish (h : r.Loaded sources) (path : ModulePath) (tokens : Token.Buffer)
    (m : Module) : (r.finish path tokens m).Loaded sources := by
  intro f hf
  obtain ⟨f₀, hf₀, rfl⟩ := List.mem_map.mp hf
  split <;> exact h f₀ hf₀

theorem Loaded.offers (h : r.Loaded sources) (hoffers : Offers sources path r f r₁) :
    r₁.Loaded sources := by
  cases hoffers with
  | registered found ready => exact h
  | loaded unknown load =>
    intro f hf
    rw [register_eq unknown] at hf
    rcases List.mem_append.mp hf with hold | hnew
    · exact h f hold
    · obtain rfl := List.mem_singleton.mp hnew
      exact load

theorem Loaded.start (h : r.Loaded sources) (hoffers : Offers sources path r f r₁) :
    (r₁.start path).Loaded sources := by
  intro f hf
  obtain ⟨f₀, hf₀, rfl⟩ := List.mem_map.mp hf
  split <;> exact h.offers hoffers f₀ hf₀

end Registry

theorem Offers.load_eq (hoffers : Offers sources path r f r₁) (h : r.Loaded sources) :
    sources.load path = some f.source := by
  obtain ⟨found, -⟩ := hoffers.search?
  have hload := h.offers hoffers f (List.mem_of_find?_eq_some found)
  rwa [path_of_search? found] at hload

theorem Completes.loaded (hcompletes : Completes sources wanted r r' order)
    (h : r.Loaded sources) : r'.Loaded sources := by
  induction hcompletes with
  | nil => exact h
  | finished _ _ _ ih => exact ih h
  | compiled hoffers _ _ _ _ _ ihasked ihothers =>
    exact ihothers ((ihasked (h.start hoffers)).finish _ _ _)

theorem Registry.Started.start (h : r.Started) (hoffers : Offers sources path r f r₁) :
    (r₁.start path).Started := by
  intro f hf
  obtain ⟨f₀, hf₀, rfl⟩ := List.mem_map.mp hf
  split
  · exact nofun
  · next hpath =>
    cases hoffers with
    | registered found ready => exact h f₀ hf₀
    | loaded unknown load =>
      rw [register_eq unknown] at hf₀
      rcases List.mem_append.mp hf₀ with hold | hnew
      · exact h f₀ hold
      · obtain rfl := List.mem_singleton.mp hnew
        exact absurd BEq.rfl hpath

theorem Registry.Started.finish (h : r.Started) (tokens : Token.Buffer) (m : Module) :
    (r.finish path tokens m).Started := by
  intro f hf
  obtain ⟨f₀, hf₀, rfl⟩ := List.mem_map.mp hf
  split
  · exact nofun
  · exact h f₀ hf₀

theorem Completes.started (hcompletes : Completes sources wanted r r' order) (h : r.Started) :
    r'.Started := by
  induction hcompletes with
  | nil => exact h
  | finished _ _ _ ih => exact ih h
  | compiled hoffers _ _ _ _ _ ihasked ihothers =>
    exact ihothers ((ihasked (h.start hoffers)).finish _ _)

/-- Where no file waits to be compiled, modules are registered in depth-first order. -/
theorem Completes.visits (hcompletes : Completes sources wanted r r' order)
    (hloaded : r.Loaded sources) (hstarted : r.Started) :
    Visits (targetsOf sources.load) wanted r.paths r'.paths := by
  induction hcompletes with
  | nil => exact .nil
  | finished found _ _ ih => exact .seen (mem_paths_of_search? found) (ih hloaded hstarted)
  | @compiled path _ _ _ _ _ _ _ _ _ _ _ hoffers hparsed hasked _ _ _ ihasked ihothers =>
    have htargets := targetsOf_eq (hoffers.load_eq hloaded) hparsed
    have hloaded₁ := hloaded.start hoffers
    have hstarted₁ := hstarted.start hoffers
    have hbelow := ihasked hloaded₁ hstarted₁
    have hothers := ihothers ((hasked.loaded hloaded₁).finish _ _ _)
      ((hasked.started hstarted₁).finish _ _)
    cases hoffers with
    | registered found ready =>
      -- A file that is registered beforehand would come before the modules that ask for it.
      exact absurd ready (hstarted _ (List.mem_of_find?_eq_some found))
    | loaded unknown load =>
      rw [paths_start, paths_register unknown] at hbelow
      rw [paths_finish] at hothers
      refine .visit (search?_eq_none_iff.mp unknown) ?_ hothers
      rwa [htargets]

theorem Offers.module?_start (hoffers : Offers sources path r f r₁) (other : ModulePath) :
    (r₁.start path).module? other = r.module? other := by
  rw [Registry.module?_start]
  cases hoffers with
  | registered found ready => rfl
  | loaded unknown load => exact module?_register unknown _ other

theorem Offers.module?_finish {r₂ : Registry} (hoffers : Offers sources path r f r₁)
    (hgrows : (r₁.start path).Grows r₂) (tokens : Token.Buffer) (m : Module) :
    (r₂.finish path tokens m).module? path = some m :=
  module?_finish_self (hoffers.search?_of_grows hgrows) tokens m

/-- What has been asked for is finished. -/
theorem Completes.hasFinished (hcompletes : Completes sources wanted r r' order)
    (hr : r.Consistent) : ∀ path ∈ wanted, r'.HasFinished path := by
  induction hcompletes with
  | nil => exact List.forall_mem_nil _
  | finished found isFinished hothers ih =>
    obtain ⟨m, hm⟩ := hr.exists_module? found isFinished
    exact List.forall_mem_cons.mpr ⟨⟨m, hothers.grows.module? hr hm⟩, ih hr⟩
  | compiled hoffers _ hasked _ _ hothers _ ih =>
    have hfinish := hoffers.consistent_finish hr hasked.grows
    have hm := hoffers.module?_finish hasked.grows
    have hpath := hothers.grows.module? (hfinish _ _) (hm _ _)
    exact List.forall_mem_cons.mpr ⟨⟨_, hpath⟩, ih (hfinish _ _)⟩

theorem Offers.hasFinished_start (hoffers : Offers sources path r f r₁) (other : ModulePath) :
    (r₁.start path).HasFinished other ↔ r.HasFinished other := by
  unfold HasFinished
  rw [hoffers.module?_start]

theorem Offers.hasFinished_finish {r₂ : Registry} (hoffers : Offers sources path r f r₁)
    (hgrows : (r₁.start path).Grows r₂) (tokens : Token.Buffer) (m : Module)
    (other : ModulePath) : (r₂.finish path tokens m).HasFinished other ↔
      r₂.HasFinished other ∨ other = path := by
  by_cases hother : other = path
  · subst hother
    exact iff_of_true ⟨m, hoffers.module?_finish hgrows tokens m⟩ (.inr rfl)
  · unfold HasFinished
    rw [module?_finish_of_ne hother, or_iff_left hother]

theorem Completes.linked (hcompletes : Completes sources wanted r r' order) (hr : r.Consistent)
    (h : r.Linked) : r'.Linked := by
  induction hcompletes with
  | nil => exact h
  | finished _ _ _ ih => exact ih hr h
  | @compiled path _ _ _ r r₁ r₂ _ f buffer items m hoffers _ hasked _ himports _ ihasked ihothers =>
    have hstart := hoffers.consistent_start hr
    refine ihothers (hoffers.consistent_finish hr hasked.grows buffer m) ?_
    have hlinked : r₂.Linked := by
      refine ihasked hstart fun other m hm entry hentry =>
        (hoffers.hasFinished_start entry.2).mpr ?_
      rw [hoffers.module?_start] at hm
      exact h other m hm entry hentry
    have hself := hoffers.module?_finish hasked.grows buffer m
    have hfinish := hoffers.hasFinished_finish hasked.grows buffer m
    intro other m' hm' entry hentry
    by_cases hother : other = path
    · subst hother
      cases hself.symm.trans hm'
      rw [himports] at hentry
      rcases List.mem_append.mp hentry with hasks | hown
      · obtain ⟨q, hq, rfl⟩ := List.mem_map.mp (List.mem_reverse.mp hasks)
        exact (hfinish _).mpr (.inl (hasked.hasFinished hstart q.target (List.mem_map_of_mem hq)))
      · obtain rfl := List.mem_singleton.mp hown
        exact ⟨_, hself⟩
    · rw [module?_finish_of_ne hother] at hm'
      exact (hfinish _).mpr (.inl (hlinked other m' hm' entry hentry))

/-- Whatever is completed on a new compiler leaves no file unfinished. -/
theorem Completes.exists_module? (hcompletes : Completes sources wanted .empty r order)
    (hf : f ∈ r.files) : f.IsFinished ∧ f.tokens?.isSome ∧
      ∃ m, f.module? = some m ∧ r.module? f.path = some m := by
  have hgrows := hcompletes.grows
  have hs := search?_of_mem (hgrows.distinct distinct_empty) hf
  have hfinished := hgrows.isFinished hs
  have hconsistent := hgrows.consistent consistent_empty f.path f hs
  have hsome := hconsistent.module.mp hfinished
  obtain ⟨m, hm⟩ := Option.isSome_iff_exists.mp hsome
  exact ⟨hfinished, hconsistent.tokens.mp hsome, m, hm, module?_eq_some.mpr ⟨f, hs, hm⟩⟩

/-- After a compilation that has succeeded on a new compiler, the registered modules are those that
can be reached from the entry, in the one depth-first order. All of them are finished, with tokens
and a module, and whatever is in the import table of a module is one of them. -/
theorem compileEntry_depthFirst {entry : ModulePath}
    (h : compileEntry sources entry .empty = .ok () r) :
    (∀ order, Visits (targetsOf sources.load) [entry] [] order ↔ order = r.files.map File.path) ∧
    (r.files.map File.path).Nodup ∧
    (∀ path, path ∈ r.files.map File.path ↔ ReflTransGen (Refers sources.load) entry path) ∧
    ∀ f ∈ r.files, f.IsFinished ∧ f.tokens?.isSome ∧ ∃ m, f.module? = some m ∧
      ∀ e ∈ m.symbols.imports, ∃ g ∈ r.files, g.path = e.2 ∧ g.IsFinished := by
  obtain ⟨order, hcompletes⟩ := requireFrom_completes h
  have hvisits := hcompletes.visits (List.forall_mem_nil _) (List.forall_mem_nil _)
  refine ⟨fun order => ⟨fun h => h.unique hvisits, ?_⟩, hcompletes.grows.distinct .nil,
    fun path => hvisits.mem_iff, ?_⟩
  · rintro rfl
    exact hvisits
  · intro f hf
    obtain ⟨hfinished, htokens, m, hm, hmodule⟩ := hcompletes.exists_module? hf
    refine ⟨hfinished, htokens, m, hm, fun e he => ?_⟩
    obtain ⟨m', hm'⟩ := hcompletes.linked consistent_empty nofun f.path m hmodule e he
    obtain ⟨g, hg, -⟩ := module?_eq_some.mp hm'
    exact ⟨g, List.mem_of_find?_eq_some hg, path_of_search? hg, hcompletes.grows.isFinished hg⟩

/-- `main` imports `a` and names a function of `b`; both of these import `c`. -/
def diamond : Sources :=
  .ofList [(⟨["main"]⟩, "import a\nfn main() \x7b b.f() \x7d"),
    (⟨["a"]⟩, "import c\npub fn f() \x7b \x7d"), (⟨["b"]⟩, "import c\npub fn f() \x7b \x7d"),
    (⟨["c"]⟩, "pub fn f() \x7b \x7d")]

theorem compileEntry_diamond :
    ∃ r, compileEntry diamond ⟨["main"]⟩ .empty = .ok () r ∧
      ∀ order, Visits (targetsOf diamond.load) [⟨["main"]⟩] [] order ↔
        order = [⟨["main"]⟩, ⟨["a"]⟩, ⟨["c"]⟩, ⟨["b"]⟩] := by
  have hfailure : failure? (compileEntry diamond ⟨["main"]⟩ .empty) = none := by
    decide +kernel
  have hpaths : (remaining (compileEntry diamond ⟨["main"]⟩ .empty)).paths =
      [⟨["main"]⟩, ⟨["a"]⟩, ⟨["c"]⟩, ⟨["b"]⟩] := by
    decide +kernel
  cases h : compileEntry diamond ⟨["main"]⟩ .empty with
  | error d r =>
    rw [h] at hfailure
    cases hfailure
  | ok _ r =>
    have hr : r.files.map File.path = [⟨["main"]⟩, ⟨["a"]⟩, ⟨["c"]⟩, ⟨["b"]⟩] := by
      rw [h] at hpaths
      exact hpaths
    exact ⟨r, rfl, hr ▸ (compileEntry_depthFirst h).1⟩

end FrontEnd.Compilation
