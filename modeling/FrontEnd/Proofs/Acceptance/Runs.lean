import FrontEnd.Proofs.Acceptance.Modules
import FrontEnd.Proofs.Runs.Termination

/-!
# When a compilation succeeds

Modules are compiled in an order that depends on where they are referred to first. But
whatever this order is, a compilation succeeds just if each module that can be reached is
accepted for itself and none of them refers to itself: that is what finished modules have
been found to satisfy, and what is enough for those that are still to be compiled.
-/

namespace FrontEnd.Compilation

open Registry
open Relation (ReflTransGen TransGen)
open Text (Position)

variable {sources : Sources} {r r' r₁ r₂ : Registry} {path other : ModulePath} {f : File}
  {position : Position} {depth : Nat} {compile : ModulePath → Compile Unit}
  {known chain : List ModulePath}

/-! ## Asking for a module -/

theorem requireWith_of_isFinished (hs : r.search? path = some f) (hf : f.IsFinished) :
    requireWith sources compile path position r = .ok () r := by
  unfold requireWith
  rw [get_bind_apply]
  unfold File.IsFinished at hf
  simp only [hs, hf]
  rfl

theorem requireWith_of_offers (h : Offers sources path r f r₁) :
    requireWith sources compile path position r = compile path r₁ := by
  unfold requireWith
  rw [get_bind_apply]
  cases h with
  | registered found ready => simp only [found, ready]
  | loaded unknown load => simp only [unknown, load, modify_bind_apply]

/-- A module with a text that does not wait is finished, or can be compiled. -/
theorem Registry.isFinished_or_offers {source : Source} (hload : sources.load path = some source)
    (hwaiting : ¬r.Waiting path) :
    (∃ f, r.search? path = some f ∧ f.IsFinished) ∨ ∃ f r₁, Offers sources path r f r₁ := by
  cases hs : r.search? path with
  | none => exact .inr ⟨_, _, .loaded hs hload⟩
  | some f =>
    cases hstate : f.state with
    | ready => exact .inr ⟨f, r, .registered hs hstate⟩
    | inProgress => exact absurd ⟨f, hs, hstate⟩ hwaiting
    | finished => exact .inl ⟨f, rfl, hstate⟩

/-! ## What has been finished -/

/-- The files hold what the sources say. What has been finished is accepted and declares what its
text says. -/
structure Registry.Fitting (sources : Sources) (r : Registry) : Prop where
  consistent : r.Consistent
  loaded : r.Loaded sources
  accepted : ∀ m, r.HasFinished m → Accepts sources.load m
  shows : r.Shows (declaredIn sources.load)

namespace Registry.Fitting

theorem empty : Registry.empty.Fitting sources :=
  ⟨consistent_empty, List.forall_mem_nil _, fun _ h => absurd h not_hasFinished_empty, nofun⟩

theorem start (h : r.Fitting sources) (hoffers : Offers sources path r f r₁) :
    (r₁.start path).Fitting sources := by
  refine ⟨hoffers.consistent_start h.consistent, h.loaded.start hoffers, fun m hm => ?_,
    fun other m hm => ?_⟩
  · exact h.accepted m ((hoffers.hasFinished_start m).mp hm)
  · rw [hoffers.module?_start] at hm
    exact h.shows other m hm

theorem finish (h : r.Fitting sources) (haccepts : Accepts sources.load path) {m : Module}
    (hshows : m.symbols.Shows (declaredIn sources.load path)) (buffer : Token.Buffer) :
    (r.finish path buffer m).Fitting sources := by
  refine ⟨h.consistent.finish path buffer m, h.loaded.finish path buffer m, ?_,
    fun other m' hm' => ?_⟩
  · rintro other ⟨m', hm'⟩
    obtain ⟨rfl, -⟩ | hold := module?_finish hm'
    · exact haccepts
    · exact h.accepted other ⟨m', hold⟩
  · obtain ⟨rfl, rfl⟩ | hold := module?_finish hm'
    · exact hshows
    · exact h.shows other m' hold

end Registry.Fitting

/-- What is asked for is served, where modules that have been asked for are fitting. -/
theorem serves_requireFrom {J : Registry → Prop}
    (hfitting : ∀ {target position r r'}, r.Fitting sources →
      requireFrom sources depth target position r = .ok () r' → r'.Fitting sources)
    (hJ : ∀ {target r r' order}, Completes sources [target] r r' order → J r → J r') :
    Serves sources.load (fun r => r.Fitting sources ∧ J r) (requireFrom sources depth) where
  stays hr h := by
    obtain ⟨order, hcompletes⟩ := requireFrom_completes h
    exact ⟨hfitting hr.1 h, hJ hcompletes hr.2⟩
  finished hr h := by
    obtain ⟨order, hcompletes⟩ := requireFrom_completes h
    exact hcompletes.hasFinished hr.1.consistent _ (List.mem_singleton_self _)
  kept _ h hm := by
    obtain ⟨order, hcompletes⟩ := requireFrom_completes h
    exact (hcompletes.hasFinished_iff _).mpr (.inl hm)
  shows hr := hr.1.shows

/-- Whatever modules are completed, what has been finished is accepted. -/
theorem requireFrom_fitting (hr : r.Fitting sources)
    (h : requireFrom sources depth path position r = .ok () r') : r'.Fitting sources := by
  induction depth generalizing path position r r' with
  | zero =>
    obtain ⟨-, -, -, rfl⟩ | ⟨f, r₁, -, hthrow⟩ := requireWith_eq_ok h
    · exact hr
    · cases hthrow
  | succ depth ih =>
    obtain ⟨-, -, -, rfl⟩ | ⟨f, r₁, hoffers, hcompile⟩ := requireWith_eq_ok h
    · exact hr
    · have hserves := serves_requireFrom (J := fun _ => True) ih fun _ _ => trivial
      obtain ⟨haccepts, r₂, buffer, m, hr₂, hshows, rfl⟩ :=
        accepts_of_compileModule hserves hoffers.search?.1 (hoffers.load_eq hr.loaded)
          ⟨hr.start hoffers, trivial⟩ hcompile
      exact hr₂.1.finish haccepts hshows buffer

/-! ## What can be finished -/

/-- Each module that a module leads to is accepted, and does not lead to itself. -/
def Compiles (load : ModulePath → Option Source) (path : ModulePath) : Prop :=
  ∀ m, ReflTransGen (Refers load) path m → Accepts load m ∧ ¬TransGen (Refers load) m m

theorem Compiles.of_refers {load : ModulePath → Option Source} {target : ModulePath}
    (h : Compiles load path) (htarget : Refers load path target) : Compiles load target :=
  fun m hm => h m (.head htarget hm)

/-- A state in which a module may be asked for: the modules of a chain wait, and all that wait have
led to it. -/
structure Registry.Awaits (sources : Sources) (known chain : List ModulePath) (path : ModulePath)
    (r : Registry) : Prop where
  paths : r.paths ⊆ known
  chain : r.Chain chain
  leads : ∀ m, r.Waiting m → TransGen (Refers sources.load) m path

theorem Registry.Awaits.completes {wanted order : List ModulePath}
    (h : r.Awaits sources known chain path)
    (hknown : ∀ m source, sources.load m = some source → m ∈ known)
    (hcompletes : Completes sources wanted r r' order) : r'.Awaits sources known chain path where
  paths := hcompletes.paths_subset h.paths hknown
  chain := ⟨h.chain.nodup, fun m hm => hcompletes.waiting_iff.mpr (h.chain.waiting m hm)⟩
  leads m hm := h.leads m (hcompletes.waiting_iff.mp hm)

theorem Registry.Awaits.start (h : r.Awaits sources known chain path)
    (hknown : ∀ m source, sources.load m = some source → m ∈ known)
    (hoffers : Offers sources path r f r₁) {target : ModulePath}
    (htarget : Refers sources.load path target) :
    (r₁.start path).Awaits sources known (path :: chain) target where
  paths := hoffers.paths_start h.paths hknown
  chain := hoffers.chain_cons .nil h.chain
  leads m hm := by
    rcases hoffers.waiting_start.mp hm with hwaits | rfl
    · exact (h.leads m hwaits).tail htarget
    · exact .single htarget

/-- A module that leads to no circle does not wait itself. -/
theorem Registry.Awaits.isFinished_or_offers (h : r.Awaits sources known chain path)
    (hcompiles : Compiles sources.load path) :
    (∃ f, r.search? path = some f ∧ f.IsFinished) ∨ ∃ f r₁, Offers sources path r f r₁ := by
  obtain ⟨⟨source, -, -, hload, -⟩, hcircle⟩ := hcompiles path .refl
  exact Registry.isFinished_or_offers hload fun hwaiting => hcircle (h.leads path hwaiting)

/-- A module is completed if all that it leads to is accepted and no circle is closed. -/
theorem exists_requireFrom (hknown : ∀ m source, sources.load m = some source → m ∈ known)
    (hr : r.Fitting sources) (hawaits : r.Awaits sources known chain path)
    (hdepth : known.length ≤ depth + chain.length) (hcompiles : Compiles sources.load path) :
    ∃ r', requireFrom sources depth path position r = .ok () r' := by
  induction depth generalizing chain path position r with
  | zero =>
    rcases hawaits.isFinished_or_offers hcompiles with ⟨f, hs, hf⟩ | ⟨f, r₁, hoffers⟩
    · exact ⟨r, requireWith_of_isFinished hs hf⟩
    · have hlength := hoffers.length_lt hawaits.paths hknown hawaits.chain
      omega
  | succ depth ih =>
    rcases hawaits.isFinished_or_offers hcompiles with ⟨f, hs, hf⟩ | ⟨f, r₁, hoffers⟩
    · exact ⟨r, requireWith_of_isFinished hs hf⟩
    -- While the module waits, whatever it refers to may be asked for.
    have hserves : Serves _ _ (requireFrom sources depth) := serves_requireFrom
      (J := fun s => ∀ target, Refers sources.load path target →
        s.Awaits sources known (path :: chain) target)
      requireFrom_fitting fun hdone hs target htarget => (hs target htarget).completes hknown hdone
    obtain ⟨r', hr'⟩ := exists_compileModule_of_accepts hserves hoffers.search?.1
      (hoffers.load_eq hr.loaded)
      ⟨hr.start hoffers, fun _ => hawaits.start hknown hoffers⟩ (hcompiles path .refl).1
      fun target position s htarget hs =>
        ih hs.1 (hs.2 target htarget) (by rw [List.length_cons]; omega)
          (hcompiles.of_refers htarget)
    exact ⟨r', (requireWith_of_offers hoffers).trans hr'⟩

/-- A compilation on a new compiler succeeds just if each module that the entry leads to is accepted
for itself, and none of them leads to itself. -/
theorem compileEntry_succeeds_iff (hbounded : sources.Bounded) (entry : ModulePath) :
    (∃ r, compileEntry sources entry .empty = .ok () r) ↔ Compiles sources.load entry := by
  constructor
  · rintro ⟨r, h⟩ m hm
    obtain ⟨order, hcompletes⟩ := requireFrom_completes h
    have hvisits := hcompletes.visits (List.forall_mem_nil _) (List.forall_mem_nil _)
    obtain ⟨f, hf, rfl⟩ := List.mem_map.mp (hvisits.mem_iff.mpr hm)
    obtain ⟨-, -, m, -, hmodule⟩ := hcompletes.exists_module? hf
    have hfitting : r.Fitting sources := requireFrom_fitting .empty h
    have horder : f.path ∈ order :=
      ((hcompletes.hasFinished_iff f.path).mp ⟨m, hmodule⟩).resolve_left not_hasFinished_empty
    exact ⟨hfitting.accepted _ ⟨m, hmodule⟩, hcompletes.settled_empty.acyclic horder⟩
  · intro hcompiles
    obtain ⟨known, hlength, hknown⟩ := hbounded
    refine exists_requireFrom hknown .empty ⟨List.nil_subset _, chain_nil _, ?_⟩ ?_ hcompiles
    · exact fun m hm => absurd hm not_waiting_empty
    · exact hlength

end FrontEnd.Compilation
