import FrontEnd.Compilation.Require
import FrontEnd.Proofs.Linking.Items

/-!
# Linking is sound

After a compilation that has succeeded every file is finished, and the names in its
functions are bound to items that exist and may be seen: every call to one function.
This holds in whatever order modules ask for one another, since a sound registry stays
sound with each module that is finished.
-/

namespace FrontEnd.Compilation

open Names (FunctionSymbol GlobalSymbol Symbols)
open Text (Position)
open Registry

variable {r r' : Registry} {path : ModulePath} {file : File}

/-- A module has been compiled, and perhaps others with it. -/
structure Compiled (path : ModulePath) (r r' : Registry) : Prop where
  grows : r.Grows r'
  sound : r'.Sound
  finished : ∃ f, r'.search? path = some f ∧ f.IsFinished

theorem orFail_eq_ok {α : Type} {x : Except Diagnostic α} {a : α}
    (h : orFail x r = .ok a r') : r' = r := by
  cases x <;> cases h
  rfl

theorem orFault_eq_ok {α : Type} {buffer : Token.Buffer} {x : Except Fault α} {a : α}
    (h : orFault buffer x r = .ok a r') : r' = r := by
  cases x <;> cases h
  rfl

theorem linkModule_eq_ok {site : Site} {items : List Item} {m : Module}
    (h : linkModule site items r = .ok m r') :
    ∃ items' s, Link.linkItems site items ⟨r, .empty, .closed⟩ = .ok items' s ∧
      m = ⟨site.own, items', s.symbols⟩ ∧ r' = s.registry := by
  unfold linkModule at h
  cases hl : Link.linkItems site items ⟨r, .empty, .closed⟩ with
  | error d s =>
    rw [hl] at h
    cases h
  | ok items' s =>
    rw [hl] at h
    cases h
    exact ⟨items', s, rfl, rfl, rfl⟩

theorem Registry.Sound.of_module? (hr : r.Sound) (hconsistent : r'.Consistent)
    (h : ∀ other, r'.module? other = r.module? other) : r'.Sound := by
  have hknown : r.known.Implies r'.known := known_implies fun other m hm => by rwa [h]
  refine ⟨hconsistent, fun other m hm => ?_⟩
  rw [h] at hm
  obtain ⟨hpath, hsound⟩ := hr.modules other m hm
  exact ⟨hpath, hsound.mono hknown⟩

/-- A file in progress does not change what is known. -/
theorem Registry.Sound.start (hr : r.Sound) (hs : r.search? path = some file)
    (hready : file.state = .ready) : (r.start path).Sound :=
  hr.of_module? (hr.consistent.start hs hready) (module?_start r path)

/-- The module that has been linked is sound once it is finished, and so are the others. -/
theorem Registry.Sound.finish {s : Linking} {items : List Item} (hready : s.Ready path)
    (hconsistent : r'.Consistent) (hnone : s.registry.module? path = none)
    (hself : r'.module? path = some ⟨path, items, s.symbols⟩)
    (hothers : ∀ other, other ≠ path → r'.module? other = s.registry.module? other)
    (hdescribe : s.symbols.Describe items)
    (hbodies : ∀ f, .function f ∈ items → Block.Resolved (s.resolution path) f.body) :
    r'.Sound := by
  have hold : s.registry.known.Implies r'.known := by
    refine known_implies fun other m hm => ?_
    have hne : other ≠ path := by
      rintro rfl
      cases hnone.symm.trans hm
    rwa [hothers other hne]
  have hknown : (s.known path).Implies r'.known := by
    refine ⟨?_, ?_⟩
    · rintro f (⟨rfl, hf⟩ | hf)
      · exact ⟨_, hself, hf⟩
      · exact hold.function f hf
    · rintro g (⟨rfl, hg⟩ | hg)
      · exact ⟨_, hself, hg⟩
      · exact hold.global g hg
  refine ⟨hconsistent, fun other m hm => ?_⟩
  by_cases hother : other = path
  · subst hother
    cases hself.symm.trans hm
    refine ⟨rfl, hready.names, hdescribe, fun f hf => ?_⟩
    exact Block.Resolved.mono (hknown.resolution other) f.body (hbodies f hf)
  · rw [hothers other hother] at hm
    obtain ⟨hpath, hsound⟩ := hready.sound.modules other m hm
    exact ⟨hpath, hsound.mono hold⟩

variable {sources : Sources} {position : Position}

/-- A module that was ready is compiled if all that it asks for are. -/
theorem compileModule_compiled {require : ModulePath → Position → Compile Unit}
    (hrequire : ∀ path position r r', r.Sound → require path position r = .ok () r' →
      Compiled path r r')
    (hr : r.Sound) (hs : r.search? path = some file) (hready : file.state = .ready)
    (h : compileModule require path r = .ok () r') : Compiled path r r' := by
  obtain ⟨_, _, hget, hrest⟩ := exists_of_bind_eq_ok h
  cases hget
  simp only [hs] at hrest
  obtain ⟨_, r₁, hstart, hscan⟩ := exists_of_bind_eq_ok hrest
  cases hstart
  obtain ⟨buffer, _, hbuffer, hparse⟩ := exists_of_bind_eq_ok hscan
  obtain rfl := orFail_eq_ok hbuffer
  obtain ⟨parsed, _, hparsed, hnormalize⟩ := exists_of_bind_eq_ok hparse
  obtain rfl := orFault_eq_ok hparsed
  obtain ⟨items, _, hitems, hlink⟩ := exists_of_bind_eq_ok hnormalize
  obtain rfl := orFault_eq_ok hitems
  obtain ⟨m, r₂, hm, hfinish⟩ := exists_of_bind_eq_ok hlink
  cases hfinish
  obtain ⟨items', s, hlinked, rfl, rfl⟩ := linkModule_eq_ok hm
  have hsite : Site.Reliable ⟨path, buffer, require⟩ := fun _ _ _ _ hsound hok =>
    let hcompiled := hrequire _ _ _ _ hsound hok
    ⟨hcompiled.grows, hcompiled.sound⟩
  obtain ⟨hgrows, hs', hdescribe, hbodies⟩ :=
    Link.linkItems_linked hsite (hr.start hs hready) hlinked
  have hown := hgrows.kept (search?_start_self hs) nofun
  have hnone := hs'.sound.consistent.module?_eq_none hown nofun
  have hconsistent := hs'.sound.consistent.finish path buffer ⟨path, items', s.symbols⟩
  have hself := module?_finish_self hown buffer ⟨path, items', s.symbols⟩
  have hothers := fun other (hne : other ≠ path) =>
    module?_finish_of_ne (r := s.registry) hne buffer ⟨path, items', s.symbols⟩
  exact ⟨.finish hs hready hgrows _ _,
    .finish hs' hconsistent hnone hself hothers hdescribe hbodies,
    _, search?_finish_self hown _ _, rfl⟩

theorem requireWith_compiled {compile : ModulePath → Compile Unit}
    (hcompile : ∀ r r' file, r.Sound → r.search? path = some file → file.state = .ready →
      compile path r = .ok () r' → Compiled path r r')
    (hr : r.Sound) (h : requireWith sources compile path position r = .ok () r') :
    Compiled path r r' := by
  obtain ⟨_, _, hget, hrest⟩ := exists_of_bind_eq_ok h
  cases hget
  cases hs : r.search? path with
  | some file =>
    simp only [hs] at hrest
    cases hstate : file.state with
    | finished =>
      simp only [hstate] at hrest
      cases hrest
      exact ⟨.refl _, hr, file, hs, hstate⟩
    | inProgress =>
      simp only [hstate] at hrest
      cases hrest
    | ready =>
      simp only [hstate] at hrest
      exact hcompile r r' file hr hs hstate hrest
  | none =>
    simp only [hs] at hrest
    cases hload : sources.load path with
    | none =>
      simp only [hload] at hrest
      cases hrest
    | some source =>
      simp only [hload] at hrest
      obtain ⟨_, _, hregister, hcompiles⟩ := exists_of_bind_eq_ok hrest
      cases hregister
      have hnew : (r.register path source).search? path = some (.ofSource path source) := by
        rw [search?_register hs, if_pos rfl]
      have hsound := hr.of_module? (hr.consistent.register path source) (module?_register hs source)
      obtain ⟨hgrows, hsound', f, hf, hfinished⟩ := hcompile _ r' _ hsound hnew rfl hcompiles
      exact ⟨hgrows.register hs hf hfinished, hsound', f, hf, hfinished⟩

theorem requireFrom_compiled {depth : Nat} (hr : r.Sound)
    (h : requireFrom sources depth path position r = .ok () r') : Compiled path r r' := by
  induction depth generalizing path position r r' with
  | zero =>
    exact requireWith_compiled (fun _ _ _ _ _ _ hthrow => by cases hthrow) hr h
  | succ depth ih =>
    exact requireWith_compiled (fun _ _ _ hr hs hready hcompile =>
      compileModule_compiled (fun _ _ _ _ => ih) hr hs hready hcompile) hr h

/-- The functions and globals that are items of finished modules. -/
def Registry.items (r : Registry) : Known where
  function s := ∃ m f, r.module? s.ref.module = some m ∧ m.path = s.ref.module ∧
    .function f ∈ m.items ∧ s.Describes f
  global s := ∃ m g, r.module? s.ref.module = some m ∧ m.path = s.ref.module ∧
    .global g ∈ m.items ∧ s.Describes g

theorem Registry.Sound.known_implies_items (hr : r.Sound) : r.known.Implies r.items where
  function := by
    rintro s ⟨m, hm, hs⟩
    obtain ⟨hpath, hsound⟩ := hr.modules _ m hm
    obtain ⟨f, hf, hdescribes⟩ := hsound.described.functions s hs
    exact ⟨m, f, hm, hpath, hf, hdescribes⟩
  global := by
    rintro s ⟨m, hm, hs⟩
    obtain ⟨hpath, hsound⟩ := hr.modules _ m hm
    obtain ⟨g, hg, hdescribes⟩ := hsound.described.globals s hs
    exact ⟨m, g, hm, hpath, hg, hdescribes⟩

theorem Registry.sound_empty : Registry.empty.Sound := ⟨consistent_empty, nofun⟩

/-- After a compilation that has succeeded, every file is finished. In the functions of its module
every declaration has a slot, every variable and target is bound to a local or to a global that is
an item of a finished module, and every call to the one function of its name and number of arguments
that is an item of a finished module. An item of another module is public, and is not named by a
single segment. -/
theorem compileEntry_sound (h : compileEntry sources path .empty = .ok () r) :
    ∀ file ∈ r.files, ∃ m, file.module? = some m ∧ m.path = file.path ∧
      ∀ f, .function f ∈ m.items → Block.Resolved (r.items.resolution m.path) f.body := by
  obtain ⟨hgrows, hsound, -⟩ := requireFrom_compiled Registry.sound_empty h
  intro file hfile
  have hs := search?_of_mem (hgrows.distinct distinct_empty) hfile
  obtain ⟨m, hmodule⟩ := hsound.consistent.exists_module? hs (hgrows.isFinished hs)
  obtain ⟨hpath, hbodies⟩ := hsound.modules file.path m hmodule
  have himplies := hsound.known_implies_items.resolution m.path
  refine ⟨m, ?_, hpath, fun f hf => Block.Resolved.mono himplies f.body (hbodies.bodies f hf)⟩
  rwa [Registry.module?, hs, Option.bind_some] at hmodule

/-- The modules that a compilation has finished, if it succeeds. -/
def finishedPaths : EStateM.Result Diagnostic Registry Unit → List ModulePath
  | .ok _ r => r.modules.map Module.path
  | .error _ _ => []

/-- `main` does not import `util`, but names a global and a function of it. -/
def mainAndUtil : Sources :=
  .ofList [(⟨["main"]⟩, "fn main() \x7b x := util.base\n util.twice(x) \x7d"),
    (⟨["util"]⟩, "pub global base: i32\npub fn twice(x: i32) \x7b \x7d")]

theorem compileEntry_mainAndUtil :
    ∃ r, compileEntry mainAndUtil ⟨["main"]⟩ .empty = .ok () r ∧
      r.modules.map Module.path = [⟨["main"]⟩, ⟨["util"]⟩] ∧
      ∀ file ∈ r.files, ∃ m, file.module? = some m ∧ m.path = file.path ∧
        ∀ f, .function f ∈ m.items → Block.Resolved (r.items.resolution m.path) f.body := by
  have hpaths : finishedPaths (compileEntry mainAndUtil ⟨["main"]⟩ .empty) =
      [⟨["main"]⟩, ⟨["util"]⟩] := by
    decide +kernel
  cases h : compileEntry mainAndUtil ⟨["main"]⟩ .empty with
  | error d r =>
    rw [h] at hpaths
    cases hpaths
  | ok _ r =>
    rw [h] at hpaths
    exact ⟨r, rfl, hpaths, compileEntry_sound h⟩

end FrontEnd.Compilation
