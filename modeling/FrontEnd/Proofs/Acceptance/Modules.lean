import FrontEnd.Proofs.Acceptance.Items
import FrontEnd.Proofs.Initialization.Modules

/-!
# When a module is accepted

A module whose references are granted is compiled just if it satisfies conditions in which
the order of its functions and globals does not occur: its items declare different
signatures, what they select of other modules is public there, and each function for
itself can be flattened to one whose names are bound.
-/

namespace FrontEnd

open ControlFlow (LinksAfter SourceFunction)

/-- The function after lowering. -/
def Function.lowered (f : Function) : Function :=
  { f with body := (ShortCircuit.lowerBlock f.body).1 }

theorem functionsOf_lowerItems (items : List Item) :
    functionsOf (ShortCircuit.lowerItems items).1 = (functionsOf items).map Function.lowered := by
  induction items with
  | nil => rfl
  | cons i rest ih =>
    cases i with
    | function f => exact congrArg (f.lowered :: ·) ih
    | global | imports | submodule => exact ih

namespace Compilation

open Text (Position)

variable {load : ModulePath → Option Source} {own path : ModulePath} {source : Source}
  {buffer : Token.Buffer} {items : List Item} {I : Registry → Prop} {r r' : Registry} {f : File}
  {require : ModulePath → Position → Compile Unit}

/-- What the text of a module declares. -/
def declaredIn (load : ModulePath → Option Source) (own : ModulePath) : List Declaration :=
  match (load own).bind Source.parse? with
  | some (_, items) => declarationsOf items
  | none => []

theorem declaredIn_eq (hload : load own = some source)
    (hparse : source.parse? = some (buffer, items)) : declaredIn load own = declarationsOf items := by
  rw [declaredIn, hload, Option.bind_some, hparse]

/-- The environment of the module `own` with the items of its text. -/
def environmentOf (load : ModulePath → Option Source) (own : ModulePath) (items : List Item) :
    Environment where
  own := own
  declared := declaredIn load
  target := targetOf own items
  mentioned := mentionedIn items
  wanted := Refers load own

theorem describes_environmentOf (hload : load own = some source)
    (hparse : source.parse? = some (buffer, items)) :
    (environmentOf load own items).Describes items where
  declared := declaredIn_eq hload hparse
  target _ := rfl
  mentioned := List.Subset.refl _
  requested q hq := by
    change _ ∈ targetsOf load own
    rw [targetsOf_eq hload hparse, mem_targets_iff]
    exact .inl (List.mem_map_of_mem hq)
  wanted d hd hhandle := by
    change _ ∈ targetsOf load own
    rw [targetsOf_eq hload hparse, mem_targets_iff]
    exact .inr ⟨hhandle, d, hd, rfl⟩

theorem temporary?_of_isModuleName {name : String} (h : isModuleName name.toList = true) :
    ControlFlow.temporary? [name] = none :=
  temporary?_of_areNames (List.forall_mem_singleton.mpr h)

theorem ofSource_environmentOf (hload : load own = some source)
    (hparse : source.parse? = some (buffer, items)) :
    (environmentOf load own items).means.OfSource := by
  intro path hpath
  match path with
  | [] | _ :: _ :: _ => rfl
  | [name] =>
    rw [Environment.means_single, (describes_environmentOf hload hparse).declared] at hpath
    obtain ⟨isPublic, hmem, -⟩ := hpath
    obtain ⟨i, hi, hdeclares⟩ := List.mem_filterMap.mp hmem
    have hsignature : i.signature? = some (name, none) := by
      cases i with
      | function | global => cases hdeclares <;> rfl
      | imports | submodule => cases hdeclares
    exact temporary?_of_isModuleName <|
      isModuleName_of_mem_items hparse (List.mem_filterMap.mpr ⟨i, hi, hsignature⟩)

theorem sourceFunction_of_parse? (hparse : source.parse? = some (buffer, items)) :
    ∀ f ∈ functionsOf items, SourceFunction f.lowered := by
  obtain ⟨hscan, hitems⟩ := Source.parse?_eq_some.mp hparse
  have hgives := Grammar.gives_items buffer.tokens
  rw [hitems] at hgives
  have hbodies := isSource_of_parse? hparse
  rw [functionsOf_lowerItems, List.forall_mem_map] at hbodies
  intro f hf
  refine ⟨fun p hp => ?_, hbodies f hf⟩
  obtain ⟨i, hi, hif⟩ := List.mem_filterMap.mp hf
  cases hgives i hi with
  | function _ hparams _ =>
    cases hif
    obtain ⟨t, ht, hspells⟩ := hparams p hp
    exact temporary?_of_areNames
      (hspells.areNames (Token.hasNames_scan hscan t (List.mem_of_getElem? ht)))
  | global | imports | submodule => cases hif

/-- What is asked of the items of a module, each of which is looked at for itself. -/
structure Fits (load : ModulePath → Option Source) (own : ModulePath) (items : List Item) : Prop where
  distinct : Distinct (declarationsOf items)
  selects : ∀ i ∈ items, i.Selects (declaredIn load)
  functions : ∀ f ∈ functionsOf items, LinksAfter (environmentOf load own items).means 0 f.lowered

/-- There is a text for the module, it has a module's form, and its items fit. -/
def Accepts (load : ModulePath → Option Source) (own : ModulePath) : Prop :=
  ∃ source buffer items, load own = some source ∧ source.parse? = some (buffer, items) ∧
    Fits load own items

/-- The items fit just if they can be flattened to ones that can be linked. -/
theorem fits_iff (hload : load own = some source)
    (hparse : source.parse? = some (buffer, items)) :
    Fits load own items ↔ ∃ flat,
      ControlFlow.normalize (ShortCircuit.lowerItems items).1 = .ok flat ∧
        (Distinct (declarationsOf flat) ∧ ∀ i ∈ flat, i.Selects (declaredIn load)) ∧
          ∀ g ∈ functionsOf flat, g.Binds (environmentOf load own items).means := by
  have hsource : ∀ f ∈ functionsOf (ShortCircuit.lowerItems items).1, SourceFunction f := by
    rw [functionsOf_lowerItems, List.forall_mem_map]
    exact sourceFunction_of_parse? hparse
  have hflat := ControlFlow.exists_flattenItems_iff (ofSource_environmentOf hload hparse) hsource 0
  rw [functionsOf_lowerItems, List.forall_mem_map] at hflat
  constructor
  · rintro ⟨hdistinct, hselects, hfunctions⟩
    obtain ⟨flat, hrun, hbinds⟩ := hflat.mpr hfunctions
    have hkeeps := keeps_rewritten hrun
    exact ⟨flat, hrun, ⟨declarationsOf_keeps hkeeps ▸ hdistinct,
      (selects_keeps hkeeps _).mpr hselects⟩, hbinds⟩
  · rintro ⟨flat, hrun, ⟨hdistinct, hselects⟩, hbinds⟩
    have hkeeps := keeps_rewritten hrun
    exact ⟨declarationsOf_keeps hkeeps ▸ hdistinct, (selects_keeps hkeeps _).mp hselects,
      hflat.mp ⟨flat, hrun, hbinds⟩⟩

/-- Modules are asked for in such a way that `I` stays true, and that what is finished declares what
its text says. -/
structure Serves (load : ModulePath → Option Source) (I : Registry → Prop)
    (require : ModulePath → Position → Compile Unit) : Prop where
  stays : ∀ {target position r r'}, I r → require target position r = .ok () r' → I r'
  finished : ∀ {target position r r'}, I r → require target position r = .ok () r' →
    r'.HasFinished target
  kept : ∀ {target position r r' m}, I r → require target position r = .ok () r' →
    r.HasFinished m → r'.HasFinished m
  shows : ∀ {r}, I r → r.Shows (declaredIn load)

theorem Serves.site (h : Serves load I require) (path : ModulePath) (buffer : Token.Buffer)
    (items : List Item) :
    Site.Serves ⟨path, buffer, require⟩ (environmentOf load path items) I :=
  ⟨rfl, h.stays, h.finished, h.kept, h.shows⟩

/-- Linking the flat items of a module. -/
theorem decides_linkItems_flat (hserves : Serves load I require) (hload : load path = some source)
    (hparse : source.parse? = some (buffer, items)) {flat : List Item}
    (hflat : ControlFlow.normalize (ShortCircuit.lowerItems items).1 = .ok flat) (hr : I r) :
    Link.Decides (Site.Grants ⟨path, buffer, require⟩ (environmentOf load path items) I)
      ((Distinct (declarationsOf flat) ∧ ∀ i ∈ flat, i.Selects (declaredIn load)) ∧
        ∀ g ∈ functionsOf flat, g.Binds (environmentOf load path items).means)
      (fun _ s => I s.registry ∧ s.symbols.Shows (declarationsOf flat))
      (Link.linkItems ⟨path, buffer, require⟩ flat) ⟨r, .empty, .closed⟩ := by
  have hkeeps := keeps_mono (keeps_rewritten hflat) Block.dottedNames_congr
  have hwellFormed := wellFormed_of_normalize hflat <|
    ShortCircuit.wellFormed_lowerItems (wellFormed_of_parse? hparse)
  exact Link.decides_linkItems (hserves.site path buffer items)
    ((describes_environmentOf hload hparse).keeps hkeeps) hwellFormed hr

/-- A module that is compiled is accepted, and declares what its text says. -/
theorem accepts_of_compileModule (hserves : Serves load I require) (hs : r.search? path = some f)
    (hload : load path = some f.source) (hr : I (r.start path))
    (h : compileModule require path r = .ok () r') :
    Accepts load path ∧ ∃ r₁ buffer m, I r₁ ∧ m.symbols.Shows (declaredIn load path) ∧
      r' = r₁.finish path buffer m := by
  obtain ⟨buffer, items, flat, _, _, hparse, hflat, hm, rfl⟩ := (compileModule_eq_ok_iff hs).mp h
  obtain ⟨items', s, hlinked, rfl, rfl⟩ := linkModule_eq_ok hm
  obtain ⟨hfits, hI, hshows⟩ := (decides_linkItems_flat hserves hload hparse hflat hr).sound hlinked
  refine ⟨⟨f.source, buffer, items, hload, hparse, (fits_iff hload hparse).mpr ⟨flat, hflat, hfits⟩⟩,
    s.registry, buffer, _, hI, ?_, rfl⟩
  rwa [declaredIn_eq hload hparse, ← declarationsOf_keeps (keeps_rewritten hflat)]

/-- A module that is accepted is compiled if all is granted that it refers to. -/
theorem exists_compileModule_of_accepts (hserves : Serves load I require)
    (hs : r.search? path = some f) (hload : load path = some f.source)
    (hr : I (r.start path)) (haccepts : Accepts load path)
    (hgrants : ∀ target position r, Refers load path target → I r →
      ∃ r', require target position r = .ok () r') :
    ∃ r', compileModule require path r = .ok () r' := by
  obtain ⟨source, buffer, items, hload', hparse, hfits⟩ := haccepts
  obtain rfl := Option.some.inj (hload.symm.trans hload')
  obtain ⟨flat, hflat, hflatFits⟩ := (fits_iff hload hparse).mp hfits
  obtain ⟨items', s, hlinked⟩ :=
    (decides_linkItems_flat hserves hload hparse hflat hr).complete hgrants hflatFits
  have hm : linkModule ⟨path, buffer, require⟩ flat (r.start path) =
      .ok ⟨path, items', s.symbols⟩ s.registry := by
    rw [linkModule, hlinked]
  exact ⟨_, (compileModule_eq_ok_iff hs).mpr ⟨buffer, items, flat, _, _, hparse, hflat, hm, rfl⟩⟩

end Compilation

end FrontEnd
