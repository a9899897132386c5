import FrontEnd.Proofs.Linking.UniqueNames
import FrontEnd.Proofs.Runs.Sessions

/-!
# What finished modules are made of

Whatever is called on a compiler, and whether it succeeds or not, every finished module
is made of the items of its file, and every registered path is one that was called for
or is referred to. If the paths that are called for are made of names, so are all of
them, and no two items have the same unique name.
-/

namespace FrontEnd.Compilation

open Names (ItemRef)
open Text (Position)
open Registry

/-- A set of paths to which all belong that modules in it refer to. -/
def ClosedUnderReferences (S : ModulePath → Prop) : Prop :=
  ∀ own source buffer items, S own → Source.parse? source = some (buffer, items) →
    ∀ q ∈ references own items, S q.target

/-- All files have paths in a set, and every finished module is made of the items of its file. -/
structure Registry.Built (S : ModulePath → Prop) (r : Registry) : Prop where
  paths : ∀ {path f}, r.search? path = some f → S path
  made : ∀ {path f m}, r.search? path = some f → f.module? = some m →
    ∃ buffer items, f.source.parse? = some (buffer, items) ∧ f.Makes items m

variable {S : ModulePath → Prop} {sources : Sources} {r r' : Registry} {path : ModulePath}
  {position : Position} {paths order : List ModulePath} {d : Diagnostic} {f : File}

theorem Registry.built_empty (S : ModulePath → Prop) : Registry.empty.Built S := ⟨nofun, nofun⟩

/-- A module that a file holds is made of the items of the file. -/
def File.HoldsMade (f : File) : Prop :=
  ∀ m, f.module? = some m →
    ∃ buffer items, f.source.parse? = some (buffer, items) ∧ f.Makes items m

namespace Registry.Built

theorem paths_self (hr : r.Built S) (other : ModulePath) (f : File)
    (hf : r.search? other = some f) : S f.path :=
  path_of_search? hf ▸ hr.paths hf

theorem holdsMade (hr : r.Built S) (other : ModulePath) (f : File)
    (hf : r.search? other = some f) : f.HoldsMade :=
  fun _ hm => hr.made hf hm

theorem register (hr : r.Built S) (hpath : S path) (source : Source) :
    (r.register path source).Built S := by
  refine ⟨fun {other f} hf => ?_, fun {other f m} hf hm => ?_⟩
  · rw [← path_of_search? hf]
    exact forall_search?_register (P := fun f => S f.path) hr.paths_self hpath other f hf
  · exact forall_search?_register (P := File.HoldsMade) hr.holdsMade nofun other f hf m hm

theorem update (hr : r.Built S) {change : File → File} (hchange : ∀ f, (change f).path = f.path)
    (hs : r.search? path = some f) (hmade : (change f).HoldsMade) :
    (r.update path change).Built S := by
  refine ⟨fun {other f'} hf => ?_, fun {other f' m} hf hm => ?_⟩
  · rw [← path_of_search? hf]
    refine forall_search?_update (P := fun f => S f.path) hr.paths_self hchange hs ?_ other f' hf
    exact (hchange f).symm ▸ hr.paths_self path f hs
  · exact forall_search?_update hr.holdsMade hchange hs hmade other f' hf m hm

theorem start (hr : r.Built S) (hs : r.search? path = some f) : (r.start path).Built S := by
  refine hr.update File.path_start hs fun m hm => ?_
  obtain ⟨buffer, items, hparse, hmakes⟩ := hr.made hs hm
  exact ⟨buffer, items, hparse, hmakes.path, hmakes.linked⟩

/-- A file may be finished with a module of its own items. -/
theorem finish (hr : r.Built S) (hs : r.search? path = some f) {buffer : Token.Buffer}
    {items : List Item} {m : Module} (hparse : f.source.parse? = some (buffer, items))
    (hmakes : f.Makes items m) (tokens : Token.Buffer) : (r.finish path tokens m).Built S := by
  refine hr.update (fun f => f.path_finish tokens m) hs ?_
  rintro _ ⟨⟩
  exact ⟨buffer, items, hparse, hmakes.path, hmakes.linked⟩

end Registry.Built

theorem Offers.built {r₁ : Registry} (h : Offers sources path r f r₁) (hr : r.Built S)
    (hpath : S path) : r₁.Built S := by
  cases h with
  | registered found ready => exact hr
  | loaded unknown load => exact hr.register hpath _

theorem Offers.built_start {r₁ : Registry} (h : Offers sources path r f r₁) (hr : r.Built S)
    (hpath : S path) : (r₁.start path).Built S :=
  (h.built hr hpath).start h.search?.1

theorem Completes.built (hS : ClosedUnderReferences S) (h : Completes sources paths r r' order)
    (hr : r.Built S) (hpaths : ∀ path ∈ paths, S path) : r'.Built S := by
  induction h with
  | nil => exact hr
  | finished _ _ _ ih => exact ih hr (List.forall_mem_cons.mp hpaths).2
  | compiled hoffers hparsed hasked hmade _ _ ihasked ihothers =>
    obtain ⟨hpath, hrest⟩ := List.forall_mem_cons.mp hpaths
    have hinner := ihasked (hoffers.built_start hr hpath)
      (List.forall_mem_map.mpr (hS _ _ _ _ hpath hparsed))
    have hfound := hoffers.search?_of_grows hasked.grows
    exact ihothers (hinner.finish hfound hparsed ⟨hmade.path, hmade.linked⟩ _) hrest

theorem Fails.built (hS : ClosedUnderReferences S) {depth : Nat}
    (h : Fails sources depth path position r d r') (hr : r.Built S) (hpath : S path) :
    r'.Built S := by
  induction h with
  | waiting | missing => exact hr
  | exhausted hoffers => exact hoffers.built hr hpath
  | own hoffers hasked hdone _ =>
    refine hdone.built hS (hoffers.built_start hr hpath) fun b hb => ?_
    obtain ⟨buffer, items, hparsed, hb⟩ := hasked b hb
    obtain ⟨q, hq, rfl⟩ := List.mem_map.mp hb
    exact hS _ _ _ _ hpath hparsed q hq
  | asked hoffers hparsed heq hdone _ ih =>
    have hall := hS _ _ _ _ hpath hparsed
    rw [heq, List.forall_mem_append, List.forall_mem_cons] at hall
    obtain ⟨hbefore, hq, -⟩ := hall
    exact ih (hdone.built hS (hoffers.built_start hr hpath) (List.forall_mem_map.mpr hbefore)) hq

theorem require_built (hS : ClosedUnderReferences S) (hr : r.Built S) (hpath : S path) :
    (remaining (require sources path position r)).Built S := by
  cases h : require sources path position r with
  | ok _ r' =>
    obtain ⟨order, hcompletes⟩ := requireFrom_completes h
    exact hcompletes.built hS hr (List.forall_mem_singleton.mpr hpath)
  | error d r' => exact (requireFrom_fails h).built hS hr hpath

/-- The module that a call is about. -/
def Call.module : Call → ModulePath
  | register path _ | compileEntry path | require path _ => path

theorem Call.built (hS : ClosedUnderReferences S) (call : Call) (hr : r.Built S)
    (hpath : S call.module) : (call.filesAfter sources r).Built S := by
  cases call with
  | register path source => exact hr.register hpath source
  | compileEntry path => exact require_built hS hr hpath
  | require path position => exact require_built hS hr hpath

theorem filesAfter_built (hS : ClosedUnderReferences S) (hr : r.Built S)
    {calls : List (Sources × Call)} (hcalls : ∀ call ∈ calls, S call.2.module) :
    (filesAfter r calls).Built S := by
  induction calls generalizing r with
  | nil => exact hr
  | cons call rest ih =>
    obtain ⟨hcall, hrest⟩ := List.forall_mem_cons.mp hcalls
    exact ih (call.2.built hS hr hcall) hrest

/-- After any calls on a new compiler, every finished module is made of the items of its file. -/
theorem filesAfter_made (calls : List (Sources × Call)) {m : Module}
    (hf : f ∈ (filesAfter .empty calls).files) (hm : f.module? = some m) :
    ∃ buffer items, f.source.parse? = some (buffer, items) ∧ f.Makes items m := by
  have hvalid := ((filesAfter_steps .empty calls).valid valid_empty).1
  have hbuilt : (filesAfter .empty calls).Built fun _ => True :=
    filesAfter_built (fun _ _ _ _ _ _ _ _ => trivial) (built_empty _) fun _ _ => trivial
  exact hbuilt.made ((hvalid.search f.path f).mpr ⟨hf, rfl⟩) hm

/-- A module whose path is made of names refers to such modules only. -/
theorem closedUnderReferences_areNames : ClosedUnderReferences fun m => AreNames m.segments := by
  intro own source buffer items hown hparse q hq
  obtain ⟨hscan, hitems⟩ := Source.parse?_eq_some.mp hparse
  have hnames := Token.hasNames_scan hscan
  have hspelled := Grammar.spelledIn_of_mem_requests hitems (mem_of_mem_asked hq)
  cases hspelled with
  | imports _ _ hu hpath => exact (hnames _ (List.mem_of_getElem? hu) _ hpath).1
  | submodule _ _ hu hpath hsimple =>
    have hname := (Token.Spells.simple hpath hsimple).areNames (hnames _ (List.mem_of_getElem? hu))
    exact List.forall_mem_append.mpr ⟨hown, hname⟩
  | name ht hpath _ =>
    have hall := (hnames _ (List.mem_of_getElem? ht) _ hpath).1
    exact fun s hs => hall s (List.dropLast_subset _ hs)

/-- The names of the functions and globals of a text are names. -/
theorem isModuleName_of_mem_items {source : Source} {buffer : Token.Buffer} {items : List Item}
    (hparse : source.parse? = some (buffer, items)) {sig : String × Option Nat}
    (hsig : sig ∈ items.filterMap Item.signature?) : isModuleName sig.1.toList = true := by
  obtain ⟨hscan, hitems⟩ := Source.parse?_eq_some.mp hparse
  have hgives := Grammar.gives_items buffer.tokens
  rw [hitems] at hgives
  have hname : ∀ {token name}, Grammar.SpelledAt buffer.tokens token [name] →
      isModuleName name.toList = true := by
    rintro token name ⟨t, ht, hspells⟩
    exact hspells.areNames (Token.hasNames_scan hscan t (List.mem_of_getElem? ht)) name
      (List.mem_singleton_self _)
  obtain ⟨i, hi, hsig⟩ := List.mem_filterMap.mp hsig
  cases hgives i hi with
  | function hf _ =>
    cases hsig
    exact hname hf
  | global hg =>
    cases hsig
    exact hname hg
  | imports | submodule => cases hsig

theorem signatures_of_keeps {α : Type} {view : Block → α} {items items' : List Item}
    (h : List.Forall₂ (Item.Keeps view) items items') :
    items'.filterMap Item.signature? = items.filterMap Item.signature? := by
  induction h with
  | nil => rfl
  | cons hi _ ih =>
    cases hi with
    | function => exact congrArg (List.cons _) ih
    | other => rw [List.filterMap_cons, List.filterMap_cons, ih]

/-- The unique names of a module's functions and globals, as far as they are set. -/
def Module.uniqueNames (m : Module) : List (Option String) := m.items.filterMap Item.uniqueName?

/-- The functions and globals that a module declares. -/
structure Module.Declares (m : Module) (refs : List ItemRef) : Prop where
  uniqueNames : m.uniqueNames = refs.map (some ·.uniqueName)
  nodup : refs.Nodup
  module : ∀ r ∈ refs, r.module = m.path
  named : ∀ r ∈ refs, r.IsNamed

theorem File.Makes.exists_declares {m : Module} {buffer : Token.Buffer} {items : List Item}
    (h : f.Makes items m) (hparse : f.source.parse? = some (buffer, items))
    (hpath : AreNames f.path.segments) : ∃ refs, m.Declares refs := by
  obtain ⟨hm, flat, hflat, hlinks, hnodup⟩ := h
  obtain ⟨refs, hnames, hsignatures, hmodule⟩ := exists_refs_of_linksTo hlinks
  have hflat' := signatures_of_keeps (keeps_rewritten hflat)
  rw [← hsignatures] at hnodup hflat'
  refine ⟨refs, hnames, hnodup.of_map, fun r hr => (hmodule r hr).trans hm.symm, fun r hr => ?_⟩
  refine ⟨by rwa [hmodule r hr], isModuleName_of_mem_items hparse (hflat' ▸ ?_)⟩
  exact List.mem_map_of_mem hr

/-- The functions and globals that all modules together declare have unique names. -/
theorem exists_nodup_uniqueNames {modules : List Module}
    (hdistinct : (modules.map Module.path).Nodup)
    (h : ∀ m ∈ modules, ∃ refs, m.Declares refs) :
    ∃ names : List String, names.Nodup ∧
      modules.flatMap Module.uniqueNames = names.map some := by
  -- The items are collected with their modules, so that names can be told apart at the end.
  have hrefs : ∃ refs : List ItemRef,
      modules.flatMap Module.uniqueNames = refs.map (some ·.uniqueName) ∧ refs.Nodup ∧
        ∀ r ∈ refs, r.IsNamed ∧ r.module ∈ modules.map Module.path := by
    induction modules with
    | nil => exact ⟨[], rfl, .nil, nofun⟩
    | cons m rest ih =>
      obtain ⟨⟨own, hown⟩, hrest⟩ := List.forall_mem_cons.mp h
      rw [List.map_cons, List.nodup_cons] at hdistinct
      obtain ⟨refs, hnames, hnodup, hall⟩ := ih hdistinct.2 hrest
      refine ⟨own ++ refs, ?_, ?_, ?_⟩
      · rw [List.flatMap_cons, hown.uniqueNames, hnames, List.map_append]
      · refine List.nodup_append.mpr ⟨hown.nodup, hnodup, ?_⟩
        rintro r hr _ hr' rfl
        exact hdistinct.1 (hown.module r hr ▸ (hall r hr').2)
      · refine List.forall_mem_append.mpr ⟨fun r hr => ⟨hown.named r hr, ?_⟩, fun r hr => ?_⟩
        · exact hown.module r hr ▸ List.mem_cons_self
        · exact ⟨(hall r hr).1, List.mem_cons_of_mem _ (hall r hr).2⟩
  obtain ⟨refs, hnames, hnodup, hall⟩ := hrefs
  refine ⟨refs.map ItemRef.uniqueName, ?_, by rw [hnames, List.map_map]; rfl⟩
  exact hnodup.map_on fun r hr r' hr' heq =>
    ItemRef.uniqueName_injOn (hall r hr).1 (hall r' hr').1 heq

theorem mem_modules {m : Module} : m ∈ r.modules ↔ ∃ f ∈ r.files, f.module? = some m :=
  List.mem_filterMap

/-- Modules have paths of their own, since their files have. -/
theorem Registry.Valid.nodup_modules (h : r.Valid) : (r.modules.map Module.path).Nodup := by
  obtain ⟨files⟩ := r
  have hdistinct := h.distinct
  have hpath := fun f hf => (h.files f hf).modulePath
  unfold Registry.modules
  dsimp only at hdistinct hpath ⊢
  clear h
  induction files with
  | nil => exact .nil
  | cons f rest ih =>
    rw [List.map_cons, List.nodup_cons] at hdistinct
    obtain ⟨hf, hrest⟩ := List.forall_mem_cons.mp hpath
    have hind := ih hdistinct.2 hrest
    cases hm : f.module? with
    | none => rwa [List.filterMap_cons_none hm]
    | some m =>
      rw [List.filterMap_cons_some hm, List.map_cons, List.nodup_cons]
      refine ⟨fun hmem => ?_, hind⟩
      obtain ⟨m', hm', hsame⟩ := List.mem_map.mp hmem
      obtain ⟨f', hf', hm'⟩ := List.mem_filterMap.mp hm'
      rw [hrest f' hf' m' hm', hf m hm] at hsame
      exact hdistinct.1 (hsame ▸ List.mem_map_of_mem hf')

/-- **Mangled names are unique.** After a compilation that has succeeded, every function and every
global of a finished module has a unique name, and no two of them have the same one. This holds on a
new compiler and after any calls, where the modules that are called for have paths made of names. -/
theorem compileEntry_uniqueNames {calls : List (Sources × Call)}
    (hcalls : ∀ call ∈ calls, AreNames call.2.module.segments) (hpath : AreNames path.segments)
    (h : compileEntry sources path (filesAfter .empty calls) = .ok () r) :
    ∃ names : List String, names.Nodup ∧ r.modules.flatMap Module.uniqueNames = names.map some := by
  have hr : filesAfter .empty (calls ++ [(sources, .compileEntry path)]) = r := by
    rw [filesAfter, List.foldl_append]
    change remaining (compileEntry sources path (filesAfter .empty calls)) = r
    rw [h]
    rfl
  have hvalid := ((filesAfter_steps .empty (calls ++ [(sources, .compileEntry path)])).valid
    valid_empty).1
  have hall : ∀ call ∈ calls ++ [(sources, .compileEntry path)], AreNames call.2.module.segments :=
    List.forall_mem_append.mpr ⟨hcalls, List.forall_mem_singleton.mpr hpath⟩
  have hbuilt := filesAfter_built closedUnderReferences_areNames (built_empty _) hall
  rw [hr] at hvalid hbuilt
  refine exists_nodup_uniqueNames hvalid.nodup_modules fun m hm => ?_
  obtain ⟨f, hf, hfm⟩ := mem_modules.mp hm
  have hs := (hvalid.search f.path f).mpr ⟨hf, rfl⟩
  obtain ⟨buffer, items, hparse, hmakes⟩ := hbuilt.made hs hfm
  exact hmakes.exists_declares hparse (hbuilt.paths hs)

/-- The unique names after a compilation, if it succeeds. -/
def uniqueNamesAfter : EStateM.Result Diagnostic Registry Unit → List (Option String)
  | .ok _ r => r.modules.flatMap Module.uniqueNames
  | .error _ _ => []

/-- `main` declares functions and a global of one name, and refers to a function of that name. -/
def overloads : Sources :=
  .ofList [(⟨["main"]⟩, "fn f() \x7b util.f.f() \x7d\nfn f(x: i32) \x7b \x7d\nglobal f: i32"),
    (⟨["util", "f"]⟩, "pub fn f() \x7b \x7d")]

theorem compileEntry_overloads :
    ∃ r, compileEntry overloads ⟨["main"]⟩ (filesAfter .empty []) = .ok () r ∧
      r.modules.flatMap Module.uniqueNames =
        [some "main.f.0.0", some "main.f.1.1", some "main.f", some "util.f.f.0.0"] ∧
      ∃ names : List String, names.Nodup ∧
        r.modules.flatMap Module.uniqueNames = names.map some := by
  have hnames : uniqueNamesAfter (compileEntry overloads ⟨["main"]⟩ (filesAfter .empty [])) =
      [some "main.f.0.0", some "main.f.1.1", some "main.f", some "util.f.f.0.0"] := by
    decide +kernel
  cases h : compileEntry overloads ⟨["main"]⟩ (filesAfter .empty []) with
  | error d r =>
    rw [h] at hnames
    cases hnames
  | ok _ r =>
    rw [h] at hnames
    exact ⟨r, rfl, hnames, compileEntry_uniqueNames (List.forall_mem_nil _) (by decide) h⟩

end FrontEnd.Compilation
