import FrontEnd.Proofs.Linking.Agreement
import FrontEnd.Proofs.Runs.Cycles

/-!
# Every call ends

A module that is entered is in progress from then on, and it is entered only if it was
not started before. So each module is entered at most once in a call, and where there are
only finitely many the depth of a call is bounded: however much deeper modules might wait
for one another, nothing would change.
-/

namespace FrontEnd.Compilation

open Registry
open Text (Position)

/-- A module has been entered: it is in progress, or finished. -/
def Registry.HasStarted (r : Registry) (path : ModulePath) : Prop :=
  ∃ f, r.search? path = some f ∧ f.state ≠ .ready

/-- Modules that may be entered one after the other: they are different ones, and none has started. -/
structure Registry.EntersOnce (r : Registry) (entered : List ModulePath) : Prop where
  nodup : entered.Nodup
  fresh : ∀ m ∈ entered, ¬r.HasStarted m

/-- A module that is asked for is not completed, without any bound on how many modules wait for one
another. The last list holds the modules that are entered until then. -/
inductive Breaks (sources : Sources) :
    ModulePath → Position → Registry → Diagnostic → Registry → List ModulePath → Prop
  | waiting {path : ModulePath} {position : Position} {r : Registry} {f : File}
    (found : r.search? path = some f) (inProgress : f.state = .inProgress) :
    Breaks sources path position r ⟨.circularDependency path.toText, position⟩ r []
  | missing {path : ModulePath} {position : Position} {r : Registry}
    (unknown : r.search? path = none) (load : sources.load path = none) :
    Breaks sources path position r ⟨.moduleNotFound path.toText, position⟩ r []
  | own {path : ModulePath} {position : Position} {r r₁ r' : Registry} {f : File}
    {before order : List ModulePath} {d : Diagnostic} (offers : Offers sources path r f r₁)
    (asked : ∀ b ∈ before, ∃ buffer items, f.source.parse? = some (buffer, items) ∧
      b ∈ (references path items).map Request.target)
    (done : Completes sources before (r₁.start path) r' order)
    (fault : f.Faults d) : Breaks sources path position r d r' (path :: order)
  | asked {path : ModulePath} {position : Position} {r r₁ r₂ r' : Registry}
    {f : File} {buffer : Token.Buffer} {items : List Item} {before after : List Request}
    {q : Request} {order entered : List ModulePath} {d : Diagnostic}
    (offers : Offers sources path r f r₁) (parsed : f.source.parse? = some (buffer, items))
    (references_eq : references path items = before ++ q :: after)
    (done : Completes sources (before.map Request.target) (r₁.start path) r₂ order)
    (failed : Breaks sources q.target (buffer.position q.token) r₂ d r' entered) :
    Breaks sources path position r d r' (path :: (order ++ entered))

variable {sources : Sources} {r r' r₁ r₂ : Registry} {path other : ModulePath} {f : File}
  {position : Position} {d : Diagnostic} {known chain wanted order entered : List ModulePath}

namespace Offers

theorem not_hasStarted (hoffers : Offers sources path r f r₁) : ¬r.HasStarted path := by
  rintro ⟨f', hs, hstate⟩
  cases hoffers with
  | registered found ready =>
    cases found.symm.trans hs
    exact hstate ready
  | loaded unknown load => cases unknown.symm.trans hs

theorem hasStarted_start (hoffers : Offers sources path r f r₁) :
    (r₁.start path).HasStarted other ↔ r.HasStarted other ∨ other = path := by
  unfold HasStarted
  by_cases hother : other = path
  · subst hother
    exact iff_of_true ⟨_, search?_start_self hoffers.search?.1, nofun⟩ (.inr rfl)
  · rw [or_iff_left hother, search?_start_of_ne hother]
    cases hoffers with
    | registered found ready => rfl
    | loaded unknown load => rw [search?_register unknown, if_neg hother]

theorem hasStarted_finish (hoffers : Offers sources path r f r₁)
    (hgrows : (r₁.start path).Grows r₂) (buffer : Token.Buffer) (m : Module) :
    (r₂.finish path buffer m).HasStarted other ↔ r₂.HasStarted other := by
  unfold HasStarted
  by_cases hother : other = path
  · subst hother
    exact iff_of_true ⟨_, hoffers.search?_finish hgrows buffer m, nofun⟩
      ⟨_, hoffers.search?_of_grows hgrows, nofun⟩
  · rw [search?_finish_of_ne hother]

end Offers

/-- What has started when modules have been completed had started before, or was compiled for it. -/
theorem Completes.hasStarted_iff (hcompletes : Completes sources wanted r r' order) :
    r'.HasStarted other ↔ r.HasStarted other ∨ other ∈ order := by
  induction hcompletes with
  | nil => rw [or_iff_left List.not_mem_nil]
  | finished _ _ _ ih => exact ih
  | compiled hoffers _ hasked _ _ _ ihasked ihothers =>
    rw [ihothers, hoffers.hasStarted_finish hasked.grows, ihasked, hoffers.hasStarted_start,
      List.mem_append, List.mem_cons, or_assoc, or_assoc, or_left_comm (b := other ∈ _)]

namespace Registry.EntersOnce

variable {entered' : List ModulePath}

theorem nil (r : Registry) : r.EntersOnce [] := ⟨.nil, List.forall_mem_nil _⟩

theorem perm (h : r.EntersOnce entered) (hperm : entered.Perm entered') : r.EntersOnce entered' :=
  ⟨hperm.nodup_iff.mp h.nodup, fun m hm => h.fresh m (hperm.mem_iff.mpr hm)⟩

/-- What is entered later is new if all that was entered before has started. -/
theorem append (h : r.EntersOnce entered) (h' : r₁.EntersOnce entered')
    (hstarted : ∀ m, r₁.HasStarted m ↔ r.HasStarted m ∨ m ∈ entered) :
    r.EntersOnce (entered ++ entered') := by
  refine ⟨List.nodup_append.mpr ⟨h.nodup, h'.nodup, ?_⟩, List.forall_mem_append.mpr ⟨h.fresh, ?_⟩⟩
  · rintro m hm _ hm' rfl
    exact h'.fresh m hm' ((hstarted m).mpr (.inr hm))
  · exact fun m hm hold => h'.fresh m hm ((hstarted m).mpr (.inl hold))

end Registry.EntersOnce

/-- A module that is offered is entered before what it asks for. -/
theorem Offers.entersOnce (hoffers : Offers sources path r f r₁)
    (h : (r₁.start path).EntersOnce entered) : r.EntersOnce (path :: entered) := by
  have hpath : r.EntersOnce [path] :=
    ⟨List.pairwise_singleton _ path, List.forall_mem_singleton.mpr hoffers.not_hasStarted⟩
  refine hpath.append h fun m => ?_
  rw [hoffers.hasStarted_start, List.mem_singleton]

/-- Modules that are completed are entered at most once, and none of them has started before. -/
theorem Completes.entersOnce (hcompletes : Completes sources wanted r r' order) :
    r.EntersOnce order := by
  induction hcompletes with
  | nil => exact .nil _
  | finished _ _ _ ih => exact ih
  | compiled hoffers _ hasked _ _ _ ihasked ihothers =>
    -- A module is entered before those that are completed for it, and finished after them.
    refine ((hoffers.entersOnce ihasked).append ihothers fun m => ?_).perm ?_
    · rw [hoffers.hasStarted_finish hasked.grows, hasked.hasStarted_iff, hoffers.hasStarted_start,
        List.mem_cons, or_assoc]
    · exact List.perm_middle.symm

/-- Until a call fails, modules are entered at most once, and none of them has started before. -/
theorem Breaks.entersOnce (hbreaks : Breaks sources path position r d r' entered) :
    r.EntersOnce entered := by
  induction hbreaks with
  | waiting | missing => exact .nil _
  | own hoffers _ hdone _ => exact hoffers.entersOnce hdone.entersOnce
  | asked hoffers _ _ hdone _ ih =>
    exact hoffers.entersOnce (hdone.entersOnce.append ih fun m => hdone.hasStarted_iff)

/-- What has started when a call has failed had started before, or was entered in it. -/
theorem Breaks.hasStarted_iff (hbreaks : Breaks sources path position r d r' entered) :
    r'.HasStarted other ↔ r.HasStarted other ∨ other ∈ entered := by
  induction hbreaks with
  | waiting | missing => rw [or_iff_left List.not_mem_nil]
  | own hoffers _ hdone _ =>
    rw [hdone.hasStarted_iff, hoffers.hasStarted_start, List.mem_cons, or_assoc]
  | asked hoffers _ _ hdone _ ih =>
    rw [ih, hdone.hasStarted_iff, hoffers.hasStarted_start, List.mem_cons, List.mem_append,
      or_assoc, or_assoc]

/-- The paths of files are known if those of the modules that can be loaded are. -/
theorem Offers.paths_start (hoffers : Offers sources path r f r₁) (hpaths : r.paths ⊆ known)
    (hknown : ∀ m source, sources.load m = some source → m ∈ known) :
    (r₁.start path).paths ⊆ known := by
  rw [Registry.paths_start]
  cases hoffers with
  | registered found ready => exact hpaths
  | loaded unknown load =>
    rw [paths_register unknown, List.append_subset]
    exact ⟨hpaths, List.cons_subset.mpr ⟨hknown _ _ load, List.nil_subset _⟩⟩

theorem Completes.paths_subset (hcompletes : Completes sources wanted r r' order)
    (hpaths : r.paths ⊆ known) (hknown : ∀ m source, sources.load m = some source → m ∈ known) :
    r'.paths ⊆ known := by
  induction hcompletes with
  | nil => exact hpaths
  | finished _ _ _ ih => exact ih hpaths
  | compiled hoffers _ _ _ _ _ ihasked ihothers =>
    refine ihothers ?_
    rw [paths_finish]
    exact ihasked (hoffers.paths_start hpaths hknown)

/-- A call that may go deep enough fails without having gone too deep. -/
theorem Fails.breaks {depth : Nat} (hfails : Fails sources depth path position r d r')
    (hknown : ∀ m source, sources.load m = some source → m ∈ known) (hpaths : r.paths ⊆ known)
    (hchain : r.Chain chain) (hdepth : known.length ≤ depth + chain.length) :
    ∃ entered, Breaks sources path position r d r' entered := by
  induction hfails generalizing chain with
  | waiting found inProgress => exact ⟨[], .waiting found inProgress⟩
  | missing unknown load => exact ⟨[], .missing unknown load⟩
  | exhausted hoffers =>
    have hlength := hoffers.length_lt hpaths hknown hchain
    omega
  | own hoffers hasked hdone hfault => exact ⟨_, .own hoffers hasked hdone hfault⟩
  | asked hoffers hparsed heq hdone _ ih =>
    obtain ⟨entered, hbreaks⟩ := ih
      (hdone.paths_subset (hoffers.paths_start hpaths hknown) hknown)
      (hoffers.chain_cons hdone hchain) (by rw [List.length_cons]; omega)
    exact ⟨_, .asked hoffers hparsed heq hdone hbreaks⟩

theorem requireWith_congr {compile compile' : ModulePath → Compile Unit}
    (h : ∀ f r₁, Offers sources path r f r₁ → compile path r₁ = compile' path r₁) :
    requireWith sources compile path position r = requireWith sources compile' path position r := by
  unfold requireWith
  refine get_bind_eq ?_
  cases hs : r.search? path with
  | some f =>
    dsimp only
    cases hstate : f.state with
    | finished => rfl
    | inProgress => rfl
    | ready => exact h f r (.registered hs hstate)
  | none =>
    cases hload : sources.load path with
    | none => rfl
    | some source => exact modify_bind_eq (h _ _ (.loaded hs hload))

/-- Two depths that are both sufficient make no difference. -/
theorem requireFrom_congr {depth depth' : Nat}
    (hknown : ∀ m source, sources.load m = some source → m ∈ known) (hpaths : r.paths ⊆ known)
    (hchain : r.Chain chain) (hdepth : known.length ≤ depth + chain.length)
    (hdepth' : known.length ≤ depth' + chain.length) :
    requireFrom sources depth path position r = requireFrom sources depth' path position r := by
  induction depth generalizing depth' chain path position r with
  | zero =>
    have hnone : ∀ f r₁, ¬Offers sources path r f r₁ := by
      intro f r₁ hoffers
      have hlength := hoffers.length_lt hpaths hknown hchain
      omega
    cases depth' <;> exact requireWith_congr fun f r₁ hoffers => absurd hoffers (hnone f r₁)
  | succ depth ih =>
    cases depth' with
    | zero =>
      refine requireWith_congr fun f r₁ hoffers => ?_
      have hlength := hoffers.length_lt hpaths hknown hchain
      omega
    | succ depth' =>
      refine requireWith_congr fun f r₁ hoffers => ?_
      refine compileModule_congr (I := fun s => s.paths ⊆ known ∧ s.Chain (path :: chain)) ?_ ?_
      · rintro target position s ⟨hs, hc⟩
        rw [ih hs hc (by rw [List.length_cons]; omega)
          (by rw [List.length_cons]; omega : known.length ≤ depth' + _)]
        refine ⟨rfl, fun _ s' hok => ?_⟩
        obtain ⟨order, hcompletes⟩ := requireFrom_completes hok
        refine ⟨hcompletes.paths_subset hs hknown, hc.nodup, fun m hm => ?_⟩
        exact hcompletes.waiting_iff.mpr (hc.waiting m hm)
      · exact ⟨hoffers.paths_start hpaths hknown, hoffers.chain_cons .nil hchain⟩

/-- How a call for a module ends. The list holds the modules that are entered in it. -/
inductive Ends (sources : Sources) (path : ModulePath) (position : Position) (r : Registry) :
    EStateM.Result Diagnostic Registry Unit → List ModulePath → Prop
  | completes {r' : Registry} {order : List ModulePath}
    (completes : Completes sources [path] r r' order) : Ends sources path position r (.ok () r') order
  | breaks {d : Diagnostic} {r' : Registry} {entered : List ModulePath}
    (breaks : Breaks sources path position r d r' entered) :
    Ends sources path position r (.error d r') entered

namespace Ends

variable {result : EStateM.Result Diagnostic Registry Unit}

theorem entersOnce (h : Ends sources path position r result entered) : r.EntersOnce entered := by
  cases h with
  | completes hcompletes => exact hcompletes.entersOnce
  | breaks hbreaks => exact hbreaks.entersOnce

theorem hasStarted_iff (h : Ends sources path position r result entered) :
    (remaining result).HasStarted other ↔ r.HasStarted other ∨ other ∈ entered := by
  cases h with
  | completes hcompletes => exact hcompletes.hasStarted_iff
  | breaks hbreaks => exact hbreaks.hasStarted_iff

end Ends

/-- A call has an end, and whatever modules are entered until then, they are different ones of which
none had started before, and it is just they that have started since. -/
structure EntersEachOnce (sources : Sources) (path : ModulePath) (position : Position)
    (r : Registry) (result : EStateM.Result Diagnostic Registry Unit) : Prop where
  ends : ∃ entered, Ends sources path position r result entered
  once : ∀ {entered}, Ends sources path position r result entered → r.EntersOnce entered
  started : ∀ {entered}, Ends sources path position r result entered →
    ∀ m, (remaining result).HasStarted m ↔ r.HasStarted m ∨ m ∈ entered

/-- The modules that can be loaded or have files already are as many as a call may need. -/
theorem Sources.Bounded.exists_known (h : sources.Bounded) (r : Registry) :
    ∃ known, (∀ m source, sources.load m = some source → m ∈ known) ∧ r.paths ⊆ known ∧
      known.length ≤ sources.bound + r.files.length := by
  obtain ⟨loadable, hlength, hloadable⟩ := h
  refine ⟨loadable ++ r.paths, fun m source hload => List.mem_append_left _ (hloadable m source hload),
    List.subset_append_right _ _, ?_⟩
  rw [List.length_append, Registry.paths, List.length_map]
  omega

/-- How deeply modules may wait makes no difference beyond the number of texts and files. -/
theorem requireFrom_eq_require (hbounded : sources.Bounded) {depth : Nat}
    (hle : sources.bound + r.files.length ≤ depth) :
    requireFrom sources depth path position r = require sources path position r := by
  obtain ⟨known, hknown, hpaths, hdepth⟩ := hbounded.exists_known r
  exact requireFrom_congr hknown hpaths (chain_nil r) (Nat.le_trans hdepth hle) hdepth

theorem exists_ends (hbounded : sources.Bounded) (path : ModulePath) (position : Position)
    (r : Registry) :
    ∃ entered, Ends sources path position r (require sources path position r) entered := by
  obtain ⟨known, hknown, hpaths, hdepth⟩ := hbounded.exists_known r
  cases hrun : require sources path position r with
  | ok _ r' =>
    obtain ⟨order, hcompletes⟩ := requireFrom_completes hrun
    exact ⟨order, .completes hcompletes⟩
  | error d r' =>
    obtain ⟨entered, hbreaks⟩ := (requireFrom_fails hrun).breaks hknown hpaths (chain_nil r) hdepth
    exact ⟨entered, .breaks hbreaks⟩

theorem entersEachOnce_require (hbounded : sources.Bounded) (path : ModulePath)
    (position : Position) (r : Registry) :
    EntersEachOnce sources path position r (require sources path position r) :=
  ⟨exists_ends hbounded path position r, Ends.entersOnce, fun h _ => h.hasStarted_iff⟩

/-- **Every call ends, and enters each module at most once.** Let there be texts for finitely many
modules, whatever they refer to, and let the files be in any state. How deeply modules may wait for
one another makes no difference beyond the number of texts and files, so this never cuts a call
short. And all that a call does is to enter different modules of which none was in progress or
finished before. -/
theorem require_ends (hbounded : sources.Bounded) (path : ModulePath) (r : Registry) :
    (∀ position depth, sources.bound + r.files.length ≤ depth →
      requireFrom sources depth path position r = require sources path position r) ∧
    (∀ position, EntersEachOnce sources path position r (require sources path position r)) ∧
    EntersEachOnce sources path .null r (compileEntry sources path r) := by
  have hends := fun position => entersEachOnce_require hbounded path position r
  exact ⟨fun position depth => requireFrom_eq_require hbounded, hends, hends .null⟩

/-- Where modules refer to one another in a circle the call ends as well. -/
theorem require_ends_circular :
    requireFrom circular 100 ⟨["main"]⟩ .null .empty = compileEntry circular ⟨["main"]⟩ .empty ∧
    EntersEachOnce circular ⟨["main"]⟩ .null .empty (compileEntry circular ⟨["main"]⟩ .empty) := by
  obtain ⟨hdepth, -, hentry⟩ := require_ends (Sources.bounded_ofList _) ⟨["main"]⟩ .empty
  exact ⟨hdepth .null 100 (by decide), hentry⟩

end FrontEnd.Compilation
