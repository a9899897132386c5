import FrontEnd.Compilation.Registry

/-!
# How the registry grows

Files are registered, and then go from ready over in progress to finished. What is not
ready is left as it is by the compilation of other modules, so a finished module stays.
On the way a file holds tokens and a module just from when it is finished.
-/

namespace FrontEnd.Compilation

/-- The file is finished. -/
def File.IsFinished (f : File) : Prop := f.state = .finished

/-- A file holds its module and its tokens just if it is finished. -/
structure File.Consistent (f : File) : Prop where
  module : f.IsFinished ↔ f.module?.isSome
  tokens : f.module?.isSome ↔ f.tokens?.isSome

namespace File.Consistent

variable {f : File}

theorem ofSource (path : ModulePath) (source : Source) : (ofSource path source).Consistent :=
  ⟨iff_of_false nofun nofun, Iff.rfl⟩

theorem module?_eq_none (h : f.Consistent) (hf : ¬f.IsFinished) : f.module? = none :=
  Option.not_isSome_iff_eq_none.mp ((not_congr h.module).mp hf)

/-- A file that is ready holds nothing, and so it does while it is compiled. -/
theorem start (h : f.Consistent) (hready : f.state = .ready) : f.start.Consistent := by
  have hnot : ¬f.IsFinished := fun hf => nomatch hready.symm.trans hf
  exact ⟨iff_of_false nofun ((not_congr h.module).mp hnot), h.tokens⟩

theorem finish (f : File) (tokens : Token.Buffer) (m : Module) : (f.finish tokens m).Consistent :=
  ⟨iff_of_true rfl rfl, Iff.rfl⟩

end File.Consistent

namespace Registry

variable {r r' r'' : Registry} {path other : ModulePath} {f : File} {change : File → File}

/-- Every file has a path of its own. -/
def Distinct (r : Registry) : Prop := (r.files.map File.path).Nodup

/-- Every file that is found holds its module and its tokens just if it is finished. -/
def Consistent (r : Registry) : Prop := ∀ path f, r.search? path = some f → f.Consistent

theorem distinct_empty : Registry.empty.Distinct := .nil

theorem consistent_empty : Registry.empty.Consistent := nofun

theorem path_of_search? (h : r.search? path = some f) : f.path = path := by
  have hp := List.find?_some h
  exact eq_of_beq hp

theorem search?_of_mem (hd : r.Distinct) (h : f ∈ r.files) : r.search? f.path = some f := by
  obtain ⟨files⟩ := r
  unfold Distinct at hd
  unfold search?
  induction files with
  | nil => cases h
  | cons f' rest ih =>
    rw [List.map_cons, List.nodup_cons] at hd
    rcases List.mem_cons.mp h with rfl | hr
    · rw [List.find?_cons_of_pos (by simp)]
    · have hne : f'.path ≠ f.path := by
        intro he
        exact hd.1 (he ▸ List.mem_map_of_mem hr)
      rw [List.find?_cons_of_neg (by simpa using hne)]
      exact ih hd.2 hr

/-! ## Changes of one file -/

/-- A change that keeps the paths of files does so where only the file of a module is changed. -/
theorem path_ite (hchange : ∀ f, (change f).path = f.path) (path : ModulePath) (f : File) :
    (if f.path == path then change f else f).path = f.path := by
  split
  · exact hchange f
  · rfl

theorem search?_update (hchange : ∀ f, (change f).path = f.path) (r : Registry)
    (path other : ModulePath) : (r.update path change).search? other =
      (r.search? other).map fun f => if f.path == path then change f else f := by
  unfold search? update
  rw [List.find?_map]
  congr 2
  exact funext fun f => congrArg (· == other) (path_ite hchange path f)

theorem search?_update_self (hchange : ∀ f, (change f).path = f.path)
    (h : r.search? path = some f) : (r.update path change).search? path = some (change f) := by
  rw [search?_update hchange, h, Option.map_some, if_pos (by rw [path_of_search? h, BEq.rfl])]

theorem search?_update_of_ne (hchange : ∀ f, (change f).path = f.path) (h : other ≠ path) :
    (r.update path change).search? other = r.search? other := by
  rw [search?_update hchange]
  cases ho : r.search? other with
  | none => rfl
  | some f =>
    have hne : f.path ≠ path := by rwa [path_of_search? ho]
    rw [Option.map_some, if_neg (by simpa using hne)]

theorem search?_start_self (h : r.search? path = some f) :
    (r.start path).search? path = some f.start :=
  search?_update_self File.path_start h

theorem search?_start_of_ne (h : other ≠ path) : (r.start path).search? other = r.search? other :=
  search?_update_of_ne File.path_start h

theorem search?_finish_self (h : r.search? path = some f) (tokens : Token.Buffer) (m : Module) :
    (r.finish path tokens m).search? path = some (f.finish tokens m) :=
  search?_update_self (fun f => f.path_finish tokens m) h

theorem search?_finish_of_ne (h : other ≠ path) (tokens : Token.Buffer) (m : Module) :
    (r.finish path tokens m).search? other = r.search? other :=
  search?_update_of_ne (fun f => f.path_finish tokens m) h

theorem register_eq (h : r.search? path = none) (source : Source) :
    (r.register path source).files = r.files ++ [.ofSource path source] := by
  unfold Registry.register
  rw [h]

theorem search?_register (h : r.search? path = none) (source : Source) (other : ModulePath) :
    (r.register path source).search? other =
      if other = path then some (.ofSource path source) else r.search? other := by
  unfold register
  rw [h]
  unfold search? at h ⊢
  rw [List.find?_append]
  split
  · next he =>
    subst he
    rw [h, Option.none_or, List.find?_cons_of_pos (by simp [File.ofSource])]
  · next hne =>
    rw [List.find?_cons_of_neg (by simpa [File.ofSource] using fun he => hne he.symm)]
    simp

/-- What holds of all files holds of them after one has been registered, if it holds of that one. -/
theorem forall_search?_register {P : File → Prop} (hr : ∀ path f, r.search? path = some f → P f)
    {source : Source} (h : P (.ofSource path source)) (other : ModulePath) (f : File)
    (hf : (r.register path source).search? other = some f) : P f := by
  cases hs : r.search? path with
  | some f' =>
    unfold register at hf
    rw [hs] at hf
    exact hr other f hf
  | none =>
    rw [search?_register hs] at hf
    split at hf
    · cases hf
      exact h
    · exact hr other f hf

/-- What holds of all files holds of them after one has been changed, if it holds of that one
then. -/
theorem forall_search?_update {P : File → Prop} (hr : ∀ path f, r.search? path = some f → P f)
    (hchange : ∀ f, (change f).path = f.path) (hs : r.search? path = some f) (h : P (change f))
    (other : ModulePath) (f' : File) (hf : (r.update path change).search? other = some f') :
    P f' := by
  by_cases hother : other = path
  · subst hother
    rw [search?_update_self hchange hs] at hf
    cases hf
    exact h
  · rw [search?_update_of_ne hchange hother] at hf
    exact hr other f' hf

theorem map_path_update (hchange : ∀ f, (change f).path = f.path) (r : Registry)
    (path : ModulePath) :
    (r.update path change).files.map File.path = r.files.map File.path := by
  unfold update
  rw [List.map_map]
  exact List.map_congr_left fun f _ => path_ite hchange path f

theorem Distinct.update (hd : r.Distinct) (hchange : ∀ f, (change f).path = f.path)
    (path : ModulePath) : (r.update path change).Distinct := by
  unfold Distinct
  rwa [map_path_update hchange]

theorem Distinct.start (hd : r.Distinct) (path : ModulePath) : (r.start path).Distinct :=
  hd.update File.path_start path

theorem Distinct.finish (hd : r.Distinct) (path : ModulePath) (tokens : Token.Buffer)
    (m : Module) : (r.finish path tokens m).Distinct :=
  hd.update (fun f => f.path_finish tokens m) path

theorem Distinct.register (hd : r.Distinct) (path : ModulePath) (source : Source) :
    (r.register path source).Distinct := by
  cases h : r.search? path with
  | some f =>
    unfold Registry.register
    rwa [h]
  | none =>
    unfold Distinct at hd ⊢
    rw [register_eq h, List.map_append, List.nodup_append]
    refine ⟨hd, by simp, ?_⟩
    rintro _ hp _ hq rfl
    obtain rfl := List.mem_singleton.mp hq
    obtain ⟨f, hf, hpath⟩ := List.mem_map.mp hp
    exact List.find?_eq_none.mp h f hf (beq_iff_eq.mpr hpath)

theorem Consistent.register (hr : r.Consistent) (path : ModulePath) (source : Source) :
    (r.register path source).Consistent :=
  forall_search?_register hr (.ofSource path source)

theorem Consistent.start (hr : r.Consistent) (hs : r.search? path = some f)
    (hready : f.state = .ready) : (r.start path).Consistent :=
  forall_search?_update hr File.path_start hs ((hr path f hs).start hready)

theorem Consistent.finish (hr : r.Consistent) (path : ModulePath) (tokens : Token.Buffer)
    (m : Module) : (r.finish path tokens m).Consistent := by
  intro other f' hf
  rw [Registry.finish, search?_update fun f => f.path_finish tokens m] at hf
  obtain ⟨f, hs, rfl⟩ := Option.map_eq_some_iff.mp hf
  split
  · exact .finish f tokens m
  · exact hr other f hs

/-! ## Modules -/

theorem module?_eq_some {m : Module} :
    r.module? path = some m ↔ ∃ f, r.search? path = some f ∧ f.module? = some m :=
  Option.bind_eq_some_iff

theorem Consistent.exists_module? (hr : r.Consistent) (hs : r.search? path = some f)
    (hf : f.IsFinished) : ∃ m, r.module? path = some m := by
  obtain ⟨m, hm⟩ := Option.isSome_iff_exists.mp ((hr path f hs).module.mp hf)
  exact ⟨m, module?_eq_some.mpr ⟨f, hs, hm⟩⟩

theorem Consistent.module?_eq_none (hr : r.Consistent) (hs : r.search? path = some f)
    (hf : ¬f.IsFinished) : r.module? path = none := by
  rw [Registry.module?, hs, Option.bind_some, (hr path f hs).module?_eq_none hf]

/-- A module is where it was while it is compiled. -/
theorem module?_start (r : Registry) (path other : ModulePath) :
    (r.start path).module? other = r.module? other := by
  unfold Registry.module? Registry.start
  rw [search?_update File.path_start]
  cases r.search? other with
  | none => rfl
  | some f =>
    rw [Option.map_some, Option.bind_some, Option.bind_some]
    split <;> rfl

theorem module?_finish_of_ne (h : other ≠ path) (tokens : Token.Buffer) (m : Module) :
    (r.finish path tokens m).module? other = r.module? other := by
  unfold Registry.module?
  rw [search?_finish_of_ne h]

theorem module?_finish_self (h : r.search? path = some f) (tokens : Token.Buffer) (m : Module) :
    (r.finish path tokens m).module? path = some m :=
  module?_eq_some.mpr ⟨_, search?_finish_self h tokens m, rfl⟩

/-- Where a module has been finished it is found, and apart from it what was found before. -/
theorem module?_finish {tokens : Token.Buffer} {m m' : Module}
    (h : (r.finish path tokens m).module? other = some m') :
    other = path ∧ m' = m ∨ r.module? other = some m' := by
  by_cases hpath : other = path
  · subst hpath
    cases hs : r.search? other with
    | none =>
      rw [Registry.module?, Registry.finish, search?_update fun f => f.path_finish tokens m,
        hs] at h
      cases h
    | some f =>
      rw [module?_finish_self hs] at h
      exact .inl ⟨rfl, (Option.some.inj h).symm⟩
  · rw [module?_finish_of_ne hpath] at h
    exact .inr h

theorem module?_register (h : r.search? path = none) (source : Source) (other : ModulePath) :
    (r.register path source).module? other = r.module? other := by
  unfold Registry.module?
  rw [search?_register h]
  split
  · next he =>
    subst he
    rw [h]
    rfl
  · rfl

/-! ## Growth -/

/-- Files are only added, and those that are not ready stay as they are. Only files that were not
finished before may be left unfinished. -/
structure Grows (r r' : Registry) : Prop where
  distinct : r.Distinct → r'.Distinct
  consistent : r.Consistent → r'.Consistent
  kept : ∀ {path f}, r.search? path = some f → f.state ≠ .ready → r'.search? path = some f
  unfinished : ∀ {path f}, r'.search? path = some f → ¬f.IsFinished →
    ∃ f₀, r.search? path = some f₀ ∧ ¬f₀.IsFinished

theorem Grows.refl (r : Registry) : r.Grows r :=
  ⟨id, id, fun h _ => h, fun h hf => ⟨_, h, hf⟩⟩

theorem Grows.trans (h : r.Grows r') (h' : r'.Grows r'') : r.Grows r'' := by
  refine ⟨h'.distinct ∘ h.distinct, h'.consistent ∘ h.consistent,
    fun hs hr => h'.kept (h.kept hs hr) hr, fun hs hf => ?_⟩
  obtain ⟨f', hs', hf'⟩ := h'.unfinished hs hf
  exact h.unfinished hs' hf'

theorem Grows.module? (h : r.Grows r') (hr : r.Consistent) {m : Module}
    (hm : r.module? path = some m) : r'.module? path = some m := by
  obtain ⟨f, hs, hf⟩ := module?_eq_some.mp hm
  refine module?_eq_some.mpr ⟨f, h.kept hs ?_, hf⟩
  -- A file that is ready would hold no module.
  have hfinished : f.IsFinished := (hr path f hs).module.mpr (Option.isSome_of_eq_some hf)
  exact fun hready => nomatch hready.symm.trans hfinished

/-- What a new registry has grown to holds no file that is not finished. -/
theorem Grows.isFinished (h : Registry.empty.Grows r) (hs : r.search? path = some f) :
    f.IsFinished := by
  refine Classical.byContradiction fun hnot => ?_
  obtain ⟨f₀, hs₀, -⟩ := h.unfinished hs hnot
  cases hs₀

/-- A file that was ready has been compiled. -/
theorem Grows.finish (hs : r.search? path = some f) (hready : f.state = .ready)
    (h : (r.start path).Grows r') (tokens : Token.Buffer) (m : Module) :
    r.Grows (r'.finish path tokens m) := by
  have hown : r'.search? path = some f.start := h.kept (search?_start_self hs) nofun
  refine ⟨fun hd => ?_, fun hr => ?_, fun {other f'} hs' hstate => ?_, fun {other f'} hs' hf => ?_⟩
  · exact (h.distinct (hd.start path)).finish path tokens m
  · exact (h.consistent (hr.start hs hready)).finish path tokens m
  · have hne : other ≠ path := by
      rintro rfl
      cases hs.symm.trans hs'
      exact hstate hready
    rw [search?_finish_of_ne hne]
    exact h.kept (by rwa [search?_start_of_ne hne]) hstate
  · have hne : other ≠ path := by
      rintro rfl
      rw [search?_finish_self hown] at hs'
      cases hs'
      exact hf rfl
    rw [search?_finish_of_ne hne] at hs'
    obtain ⟨f₀, hs₀, hf₀⟩ := h.unfinished hs' hf
    rw [search?_start_of_ne hne] at hs₀
    exact ⟨f₀, hs₀, hf₀⟩

/-- A file has been registered, and compiled at once. -/
theorem Grows.register (hs : r.search? path = none) {source : Source}
    (h : (r.register path source).Grows r') (hs' : r'.search? path = some f) (hf : f.IsFinished) :
    r.Grows r' where
  distinct hd := h.distinct (hd.register path source)
  consistent hr := h.consistent (hr.register path source)
  kept := by
    intro other f' hother hstate
    have hne : other ≠ path := by
      rintro rfl
      cases hs.symm.trans hother
    refine h.kept ?_ hstate
    rwa [search?_register hs, if_neg hne]
  unfinished := by
    intro other f' hother hnot
    have hne : other ≠ path := by
      rintro rfl
      cases hs'.symm.trans hother
      exact hnot hf
    obtain ⟨f₀, hs₀, hf₀⟩ := h.unfinished hother hnot
    rw [search?_register hs, if_neg hne] at hs₀
    exact ⟨f₀, hs₀, hf₀⟩

end Registry

end FrontEnd.Compilation
