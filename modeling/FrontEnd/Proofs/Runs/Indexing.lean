import FrontEnd.Proofs.Runs.Steps

/-!
# Files by index

Files may be looked up through an index that is kept while they are registered, one after
the other, and that never changes otherwise. Whatever happens to the files, what the index
says of a path is the place of its file, so no lookup goes beyond the files that there are.
-/

namespace FrontEnd.Compilation

/-- Files with the place of each of them by path. -/
structure IndexedFiles where
  files : List File
  index : List (ModulePath × Nat)

namespace IndexedFiles

/-- No file is registered. -/
def empty : IndexedFiles := ⟨[], []⟩

/-- Adds a file, unless the module has one already, and notes its place. -/
def register (t : IndexedFiles) (path : ModulePath) (source : Source) : IndexedFiles :=
  match t.index.lookup path with
  | some _ => t
  | none => ⟨t.files ++ [.ofSource path source], (path, t.files.length) :: t.index⟩

/-- The file of a module. This fails where the index leads beyond the files. -/
def search? (t : IndexedFiles) (path : ModulePath) : Option (Option File) :=
  match t.index.lookup path with
  | some i => t.files[i]?.map some
  | none => some none

/-- Changes the file of a module. This fails where the index leads beyond the files. -/
def update? (t : IndexedFiles) (path : ModulePath) (change : File → File) : Option IndexedFiles :=
  match t.index.lookup path with
  | some i =>
    if i < t.files.length then some { t with files := t.files.modify i change } else none
  | none => some t

/-- A module is being compiled from now on. -/
def start? (t : IndexedFiles) (path : ModulePath) : Option IndexedFiles := t.update? path File.start

/-- A module has been compiled. -/
def finish? (t : IndexedFiles) (path : ModulePath) (tokens : Token.Buffer) (module : Module) :
    Option IndexedFiles :=
  t.update? path (·.finish tokens module)

/-- The index holds the place of every file. -/
structure Represents (t : IndexedFiles) (r : Registry) : Prop where
  files : t.files = r.files
  index : ∀ path, t.index.lookup path = r.files.findIdx? (·.path == path)

end IndexedFiles

variable {t t' : IndexedFiles} {r r' : Registry} {path : ModulePath} {f : File}
  {change : File → File}

namespace IndexedFiles.Represents

theorem empty : IndexedFiles.empty.Represents .empty := ⟨rfl, fun _ => rfl⟩

/-- No place is beyond the files. -/
theorem lt_length (h : t.Represents r) {i : Nat} (hi : t.index.lookup path = some i) :
    i < t.files.length := by
  rw [h.index] at hi
  obtain ⟨hlt, -⟩ := List.findIdx?_eq_some_iff_getElem.mp hi
  rwa [h.files]

/-- A lookup by index never fails, and finds the file of the path. -/
theorem search?_eq (h : t.Represents r) (path : ModulePath) :
    t.search? path = some (r.search? path) := by
  unfold search? Registry.search?
  rw [List.find?_eq_bind_findIdx?_getElem?, ← h.index, ← h.files]
  cases hi : t.index.lookup path with
  | none => rfl
  | some i =>
    have hfile := List.getElem?_eq_getElem (h.lt_length hi)
    rw [Option.bind_some, hfile]
    simp only [hfile, Option.map_some]

theorem lookup_eq_none_iff (h : t.Represents r) :
    t.index.lookup path = none ↔ r.search? path = none := by
  rw [h.index, List.findIdx?_eq_none_iff, Registry.search?, List.find?_eq_none]
  simp only [Bool.not_eq_true]

theorem register (h : t.Represents r) (path : ModulePath) (source : Source) :
    (t.register path source).Represents (r.register path source) := by
  unfold IndexedFiles.register
  cases hi : t.index.lookup path with
  | some i =>
    cases hs : r.search? path with
    | none =>
      rw [h.lookup_eq_none_iff.mpr hs] at hi
      cases hi
    | some f =>
      unfold Registry.register
      rw [hs]
      exact h
  | none =>
    have hs := h.lookup_eq_none_iff.mp hi
    rw [h.files]
    refine ⟨(Registry.register_eq hs source).symm, fun other => ?_⟩
    rw [Registry.register_eq hs, List.findIdx?_append, List.lookup_cons, ← h.index]
    by_cases hother : other = path
    · subst hother
      rw [hi, BEq.rfl, Option.none_or, List.findIdx?_cons, if_pos (by exact BEq.rfl),
        Option.map_some, Nat.zero_add]
    · have hpath : (path == other) = false := beq_eq_false_iff_ne.mpr fun heq => hother heq.symm
      rw [beq_eq_false_iff_ne.mpr hother, List.findIdx?_cons,
        if_neg (by simp [File.ofSource, hpath]), List.findIdx?_nil, Option.map_none,
        Option.map_none, Option.or_none]

theorem map_eq_self {files : List File} (h : ∀ f ∈ files, (f.path == path) = false)
    (change : File → File) :
    (files.map fun f => if f.path == path then change f else f) = files := by
  have hmap : ∀ f ∈ files, (if f.path == path then change f else f) = f := fun f hf => by
    rw [h f hf]
    rfl
  rw [List.map_congr_left hmap, List.map_id']

/-- Where files have paths of their own, to change all files of a path is to change that at the
place of the path. -/
theorem modify_eq_map {files : List File} (hd : (files.map File.path).Nodup) {i : Nat}
    (hi : files.findIdx? (·.path == path) = some i) (change : File → File) :
    files.modify i change = files.map fun f => if f.path == path then change f else f := by
  induction files generalizing i with
  | nil => cases hi
  | cons f rest ih =>
    rw [List.map_cons, List.nodup_cons] at hd
    rw [List.findIdx?_cons] at hi
    rw [List.map_cons]
    split at hi
    · next hpath =>
      obtain rfl := Option.some.inj hi
      rw [if_pos hpath, List.modify_zero_cons, map_eq_self]
      intro g hg
      refine beq_eq_false_iff_ne.mpr fun heq => hd.1 ?_
      rw [eq_of_beq hpath, ← heq]
      exact List.mem_map_of_mem hg
    · next hpath =>
      obtain ⟨j, hj, rfl⟩ := Option.map_eq_some_iff.mp hi
      rw [if_neg hpath, List.modify_succ_cons, ih hd.2 hj]

/-- A change of one file goes to its place, and leaves all places as they are. -/
theorem update (h : t.Represents r) (hd : r.Distinct) (hchange : ∀ f, (change f).path = f.path)
    (path : ModulePath) :
    ∃ t', t.update? path change = some t' ∧ t'.Represents (r.update path change) := by
  have hindex : ∀ other, t.index.lookup other =
      (r.update path change).files.findIdx? (·.path == other) := by
    intro other
    rw [h.index]
    change _ = (r.files.map _).findIdx? _
    rw [List.findIdx?_map]
    congr 1
    exact funext fun f => (congrArg (· == other) (Registry.path_ite hchange path f)).symm
  unfold IndexedFiles.update?
  cases hi : t.index.lookup path with
  | none =>
    refine ⟨t, rfl, ?_, hindex⟩
    rw [h.index, List.findIdx?_eq_none_iff] at hi
    exact h.files.trans (map_eq_self hi change).symm
  | some i =>
    dsimp only
    rw [if_pos (h.lt_length hi)]
    refine ⟨_, rfl, ?_, hindex⟩
    rw [h.index] at hi
    rw [h.files]
    exact modify_eq_map hd hi change

end IndexedFiles.Represents

/-- The registry has been kept with an index, by the same changes one after the other. -/
inductive IndexedFiles.Keeps : IndexedFiles → Registry → Prop
  | empty : Keeps .empty .empty
  | register {t : IndexedFiles} {r : Registry} (kept : Keeps t r) (path : ModulePath)
    (source : Source) : Keeps (t.register path source) (r.register path source)
  | start {t t' : IndexedFiles} {r : Registry} (kept : Keeps t r) {path : ModulePath}
    (start : t.start? path = some t') : Keeps t' (r.start path)
  | finish {t t' : IndexedFiles} {r : Registry} (kept : Keeps t r) {path : ModulePath}
    {tokens : Token.Buffer} {m : Module} (finish : t.finish? path tokens m = some t') :
    Keeps t' (r.finish path tokens m)

namespace IndexedFiles

/-- What is kept by the same changes holds the place of every file. -/
theorem Keeps.represents (h : t.Keeps r) : t.Represents r := by
  suffices r.Distinct ∧ t.Represents r from this.2
  induction h with
  | empty => exact ⟨Registry.distinct_empty, .empty⟩
  | register _ path source ih => exact ⟨ih.1.register path source, ih.2.register path source⟩
  | @start t t' r _ path hstart ih =>
    obtain ⟨hd, hrepresents⟩ := ih
    obtain ⟨t'', hset, hrepresents'⟩ := hrepresents.update hd File.path_start path
    obtain rfl := Option.some.inj (hstart.symm.trans hset)
    exact ⟨hd.start path, hrepresents'⟩
  | @finish t t' r _ path tokens m hfinish ih =>
    obtain ⟨hd, hrepresents⟩ := ih
    obtain ⟨t'', hset, hrepresents'⟩ := hrepresents.update hd (fun f => f.path_finish tokens m) path
    obtain rfl := Option.some.inj (hfinish.symm.trans hset)
    exact ⟨hd.finish path tokens m, hrepresents'⟩

/-- Whatever happens to the registry, its index can be kept: no change goes beyond the files. -/
theorem Keeps.step (h : t.Keeps r) (hd : r.Distinct) (hstep : Registry.Step r r') :
    ∃ t' : IndexedFiles, t'.Keeps r' := by
  have hrepresents := h.represents
  cases hstep with
  | register unknown source => exact ⟨_, .register h _ source⟩
  | start found ready =>
    obtain ⟨t', hset, -⟩ := hrepresents.update hd File.path_start _
    exact ⟨t', .start h hset⟩
  | @finish path f found inProgress tokens m path_eq =>
    obtain ⟨t', hset, -⟩ := hrepresents.update hd (fun f => f.path_finish tokens m) path
    exact ⟨t', .finish h hset⟩

end IndexedFiles

/-- The registry can be kept with an index, and however this has been done they are in step: the
index holds the place of every file, and what is looked up by it is the file of the path. -/
structure Registry.InStep (r : Registry) : Prop where
  exists_keeps : ∃ t : IndexedFiles, t.Keeps r
  represents : ∀ {t : IndexedFiles}, t.Keeps r → t.Represents r
  search?_eq : ∀ {t : IndexedFiles}, t.Keeps r → ∀ path, t.search? path = some (r.search? path)

theorem Registry.Steps.exists_keeps (h : Registry.empty.Steps r) :
    ∃ t : IndexedFiles, t.Keeps r := by
  induction h with
  | refl => exact ⟨.empty, .empty⟩
  | tail hsteps hstep ih =>
    obtain ⟨t, hkeeps⟩ := ih
    exact hkeeps.step (Steps.valid valid_empty hsteps).1.distinct hstep

theorem Registry.Steps.inStep (h : Registry.empty.Steps r) : r.InStep :=
  ⟨h.exists_keeps, fun hkeeps => hkeeps.represents, fun hkeeps => hkeeps.represents.search?_eq⟩

end FrontEnd.Compilation
