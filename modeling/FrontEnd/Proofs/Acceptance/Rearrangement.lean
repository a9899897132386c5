import FrontEnd.Proofs.Acceptance.Runs
import FrontEnd.Proofs.Printing.Modules

/-!
# The order of declarations

Functions and globals may be declared in any order. The order decides which modules are compiled
first and how temporaries are numbered, but not whether a compilation succeeds: what a
module declares, what its names stand for and which modules it refers to stay the same,
as long as imports and submodules follow one another as before.
-/

namespace FrontEnd

/-! ## Items without tokens -/

theorem Item.declaration?_withoutTokens (i : Item) :
    i.withoutTokens.declaration? = i.declaration? := by
  cases i with
  | function f => simp [withoutTokens, declaration?, Function.arity]
  | global | imports | submodule => rfl

theorem Item.entries_withoutTokens (own : ModulePath) (i : Item) :
    (i.withoutTokens.requests own).map Request.entry = (i.requests own).map Request.entry := by
  cases i <;> rfl

theorem Item.selects_withoutTokens {declared : ModulePath → List Declaration} (i : Item) :
    i.withoutTokens.Selects declared ↔ i.Selects declared := by
  cases i with
  | imports i => exact List.forall_mem_map
  | function | global | submodule => rfl

theorem Item.function?_withoutTokens (i : Item) :
    i.withoutTokens.function? = i.function?.map (Function.relabel .forget) := by
  cases i with
  | function f =>
    rw [withoutTokens, function?, function?, Option.map_some, Function.relabel,
      Block.relabel_forget]
    rfl
  | global | imports | submodule => rfl

theorem functionsOf_withoutTokens (items : List Item) :
    functionsOf (items.map Item.withoutTokens) =
      (functionsOf items).map (Function.relabel .forget) := by
  rw [functionsOf, functionsOf, List.filterMap_map, List.map_filterMap]
  exact List.filterMap_congr fun i _ => i.function?_withoutTokens

/-- What is lowered are the bodies, whatever the labels are. -/
theorem Function.relabel_lowered (l : Relabeling) (f : Function) :
    f.lowered.relabel l = (f.relabel l).lowered := by
  rw [lowered, lowered, relabel, relabel, ShortCircuit.relabel_lowerBlock]

/-! ## Items in another order -/

/-- The item asks for another module. -/
def Item.asksForModule : Item → Bool
  | imports _ | submodule _ => true
  | function _ | global _ => false

/-- The items are the same but for their tokens and their order, and imports and submodules follow
one another as before. -/
structure RearrangedItems (items items' : List Item) : Prop where
  perm : (items.map Item.withoutTokens).Perm (items'.map Item.withoutTokens)
  ordered : (items.map Item.withoutTokens).filter Item.asksForModule =
    (items'.map Item.withoutTokens).filter Item.asksForModule

namespace RearrangedItems

variable {items items' : List Item} {own target : ModulePath}

theorem refl (items : List Item) : RearrangedItems items items := ⟨.refl _, rfl⟩

theorem symm (h : RearrangedItems items items') : RearrangedItems items' items :=
  ⟨h.perm.symm, h.ordered.symm⟩

/-- The same signatures are declared. -/
theorem declarations (h : RearrangedItems items items') :
    (declarationsOf items).Perm (declarationsOf items') := by
  have hforget : ∀ items : List Item,
      (items.map Item.withoutTokens).filterMap Item.declaration? = declarationsOf items := by
    intro items
    rw [List.filterMap_map]
    exact List.filterMap_congr fun i _ => i.declaration?_withoutTokens
  rw [← hforget, ← hforget]
  exact h.perm.filterMap _

/-- There are the same functions, but for their tokens. -/
theorem functions (h : RearrangedItems items items') :
    ((functionsOf items).map (Function.relabel .forget)).Perm
      ((functionsOf items').map (Function.relabel .forget)) := by
  rw [← functionsOf_withoutTokens, ← functionsOf_withoutTokens]
  exact h.perm.filterMap _

/-- Imports and submodules make the same aliases, in the same order. -/
theorem entries (h : RearrangedItems items items') (own : ModulePath) :
    (items.flatMap (Item.requests own)).map Request.entry =
      (items'.flatMap (Item.requests own)).map Request.entry := by
  have hordered : ∀ items : List Item, (items.flatMap (Item.requests own)).map Request.entry =
      ((items.map Item.withoutTokens).filter Item.asksForModule).flatMap
        fun i => (i.requests own).map Request.entry := by
    intro items
    induction items with
    | nil => rfl
    | cons i rest ih =>
      rw [List.flatMap_cons, List.map_append, ih, ← Item.entries_withoutTokens]
      cases i <;> rfl
  rw [hordered, hordered, h.ordered]

theorem aliases (h : RearrangedItems items items') (own : ModulePath) :
    aliasesOf own items = aliasesOf own items' := by
  rw [aliasesOf, aliasesOf, h.entries]

/-- The same dotted names are mentioned, though at other tokens. -/
theorem paths (h : RearrangedItems items items') :
    ((mentionedIn items).map DottedName.path).Perm ((mentionedIn items').map DottedName.path) := by
  have hforget : ∀ items : List Item, (mentionedIn items).map DottedName.path =
      ((functionsOf items).map (Function.relabel .forget)).flatMap
        fun f => (Block.dottedNames f.body).map DottedName.path := by
    intro items
    rw [mentionedIn, List.map_flatMap, List.flatMap_map]
    refine List.flatMap_congr fun f _ => ?_
    rw [Function.relabel, Block.dottedNames_relabel, List.map_map]
    rfl
  rw [hforget, hforget]
  exact h.functions.flatMap_right _

/-- The items refer to the same modules. -/
theorem mem_targets (h : RearrangedItems items items') :
    target ∈ (references own items).map Request.target ↔
      target ∈ (references own items').map Request.target := by
  have htargets : (items.flatMap (Item.requests own)).map Request.target =
      (items'.flatMap (Item.requests own)).map Request.target := by
    have hsnd := congrArg (List.map Prod.snd) (h.entries own)
    rwa [List.map_map, List.map_map] at hsnd
  have hmentioned : ∀ items : List Item, (∃ d ∈ mentionedIn items, ⟨d.path.dropLast⟩ = target) ↔
      ∃ path ∈ (mentionedIn items).map DottedName.path, ⟨path.dropLast⟩ = target := by
    intro items
    simp only [List.mem_map, exists_exists_and_eq_and]
  rw [mem_targets_iff, mem_targets_iff, htargets, h.aliases, hmentioned, hmentioned]
  simp only [h.paths.mem_iff]

/-- The items select what is public just as before, if the same is declared elsewhere. -/
theorem selects {declared declared' : ModulePath → List Declaration} (h : RearrangedItems items items')
    (hdeclared : ∀ m, (declared m).Perm (declared' m)) (hselects : ∀ i ∈ items, i.Selects declared) :
    ∀ i ∈ items', i.Selects declared' := by
  have hforget : ∀ i ∈ items'.map Item.withoutTokens, i.Selects declared := by
    intro i hi
    obtain ⟨i₀, hi₀, rfl⟩ := List.mem_map.mp (h.perm.mem_iff.mpr hi)
    exact i₀.selects_withoutTokens.mpr (hselects i₀ hi₀)
  intro i hi
  have hi' := i.selects_withoutTokens.mp (hforget _ (List.mem_map_of_mem hi))
  cases i with
  | imports i =>
    intro n hn
    obtain ⟨arity, hmem⟩ := hi' n hn
    exact ⟨arity, (hdeclared _).mem_iff.mp hmem⟩
  | function | global | submodule => trivial

end RearrangedItems

namespace Compilation

open ControlFlow (linksAfter_congr)

/-- The items of a text, if it has a module's form. -/
def Source.items? (s : Source) : Option (List Item) := s.parse?.map Prod.snd

/-- The items of a module, if there is a text of a module's form for it. -/
def Sources.items? (sources : Sources) (m : ModulePath) : Option (List Item) :=
  (sources.load m).bind Source.items?

/-- The texts have the same items but for tokens and order, or neither has a module's form. -/
def Source.Rearranged (s s' : Source) : Prop :=
  Option.Rel RearrangedItems s.items? s'.items?

/-- The same modules have texts of a module's form, with the same items but for tokens and order. -/
def Sources.Rearranged (sources sources' : Sources) : Prop :=
  ∀ m, Option.Rel RearrangedItems (sources.items? m) (sources'.items? m)

variable {sources sources' : Sources} {m own target : ModulePath} {items items' : List Item}

theorem Sources.items?_eq_some : sources.items? m = some items ↔
    ∃ source buffer, sources.load m = some source ∧ source.parse? = some (buffer, items) := by
  simp [items?, Source.items?, Option.bind_eq_some_iff]

theorem declaredIn_eq_getD (sources : Sources) (m : ModulePath) :
    declaredIn sources.load m = ((sources.items? m).map declarationsOf).getD [] := by
  rw [declaredIn, Sources.items?]
  cases sources.load m with
  | none => rfl
  | some s => cases hparse : s.parse? <;> simp [Source.items?, hparse]

theorem targetsOf_eq_getD (sources : Sources) (m : ModulePath) :
    targetsOf sources.load m =
      ((sources.items? m).map fun items => (references m items).map Request.target).getD [] := by
  rw [targetsOf, referencesOf, Sources.items?]
  cases sources.load m with
  | none => rfl
  | some s => cases hparse : s.parse? <;> simp [Source.items?, hparse]

theorem accepts_iff : Accepts sources.load m ↔
    ∃ items, sources.items? m = some items ∧ Fits sources.load m items := by
  simp only [Accepts, Sources.items?_eq_some]
  constructor
  · rintro ⟨source, buffer, items, hload, hparse, hfits⟩
    exact ⟨items, ⟨source, buffer, hload, hparse⟩, hfits⟩
  · rintro ⟨items, ⟨source, buffer, hload, hparse⟩, hfits⟩
    exact ⟨source, buffer, items, hload, hparse, hfits⟩

/-- Texts that are given one by one can be rearranged one by one. -/
theorem Sources.rearranged_ofList {texts texts' : List (ModulePath × String)}
    (h : List.Forall₂ (fun t t' => t.1 = t'.1 ∧
      Source.Rearranged ⟨nameOf t.1, t.2⟩ ⟨nameOf t.1, t'.2⟩) texts texts') :
    (ofList texts).Rearranged (ofList texts') := by
  intro m
  rw [items?, items?, ofList, ofList]
  have hreverse := List.forall₂_reverse_iff.mpr h
  dsimp only
  -- The last text given for a module counts.
  generalize texts.reverse = last, texts'.reverse = last' at hreverse
  induction hreverse with
  | nil => exact .none
  | @cons t t' _ _ ht _ ih =>
    obtain ⟨hpath, hitems⟩ := ht
    rw [List.find?_cons, List.find?_cons, ← hpath]
    split
    · next hfound =>
      obtain rfl := eq_of_beq hfound
      exact hitems
    · exact ih

/-- The canonical text of a printable module has the items of the module, but for their tokens. -/
theorem Source.exists_items?_sourceText (file : String) (h : items.all Item.isPrintable = true) :
    ∃ read, Source.items? ⟨file, sourceText items⟩ = some read ∧
      read.map Item.withoutTokens = items.map Item.withoutTokens := by
  obtain ⟨ts, eof, hscan, hread, heof⟩ := Printing.scan_write file (lineAfter_flatMap_pieces h)
  obtain ⟨read, hrun, hitems⟩ := Grammar.items_of_forall₂ (List.all_eq_true.mp h) hread heof
  have hparse : Source.parse? ⟨file, sourceText items⟩ = some (⟨file, ts ++ [eof]⟩, read) :=
    Source.parse?_eq_some.mpr ⟨hscan, hrun⟩
  exact ⟨read, by rw [items?, hparse, Option.map_some], hitems⟩

/-- The canonical texts of printable modules are rearranged as their items are. -/
theorem Source.rearranged_sourceText (file file' : String) (h : items.all Item.isPrintable = true)
    (h' : items'.all Item.isPrintable = true) (hitems : RearrangedItems items items') :
    Source.Rearranged ⟨file, sourceText items⟩ ⟨file', sourceText items'⟩ := by
  obtain ⟨read, hread, hforget⟩ := exists_items?_sourceText file h
  obtain ⟨read', hread', hforget'⟩ := exists_items?_sourceText file' h'
  rw [Rearranged, hread, hread']
  refine .some ⟨?_, ?_⟩ <;> rw [hforget, hforget']
  exacts [hitems.perm, hitems.ordered]

theorem Source.Rearranged.refl (s : Source) : s.Rearranged s := by
  unfold Source.Rearranged
  cases s.items? with
  | none => exact .none
  | some items => exact .some (.refl items)

namespace Sources.Rearranged

/-- Either neither text is that of a module, or both are, with the same items in another order. -/
theorem none_or_some (h : sources.Rearranged sources') (m : ModulePath) :
    sources.items? m = none ∧ sources'.items? m = none ∨
      ∃ items items', sources.items? m = some items ∧ sources'.items? m = some items' ∧
        RearrangedItems items items' := by
  have hm := h m
  revert hm
  generalize sources.items? m = x, sources'.items? m = y
  rintro (hitems | _)
  · exact .inr ⟨_, _, rfl, rfl, hitems⟩
  · exact .inl ⟨rfl, rfl⟩

theorem symm (h : sources.Rearranged sources') : sources'.Rearranged sources := by
  intro m
  obtain ⟨hnone, hnone'⟩ | ⟨items, items', hsome, hsome', hitems⟩ := h.none_or_some m
  · rw [hnone, hnone']
    exact .none
  · rw [hsome, hsome']
    exact .some hitems.symm

theorem declaredIn_perm (h : sources.Rearranged sources') (m : ModulePath) :
    (declaredIn sources.load m).Perm (declaredIn sources'.load m) := by
  rw [declaredIn_eq_getD, declaredIn_eq_getD]
  obtain ⟨hnone, hnone'⟩ | ⟨items, items', hsome, hsome', hitems⟩ := h.none_or_some m
  · rw [hnone, hnone']
  · rw [hsome, hsome']
    exact hitems.declarations

theorem refers_iff (h : sources.Rearranged sources') :
    Refers sources.load own target ↔ Refers sources'.load own target := by
  rw [Refers, Refers, targetsOf_eq_getD, targetsOf_eq_getD]
  obtain ⟨hnone, hnone'⟩ | ⟨items, items', hsome, hsome', hitems⟩ := h.none_or_some own
  · rw [hnone, hnone']
  · rw [hsome, hsome']
    exact hitems.mem_targets

/-- Names mean the same. -/
theorem means_eq (h : sources.Rearranged sources') (hitems : RearrangedItems items items')
    (own : ModulePath) : (environmentOf sources.load own items).means =
      (environmentOf sources'.load own items').means := by
  have hmodule : (environmentOf sources.load own items).moduleOf =
      (environmentOf sources'.load own items').moduleOf := by
    funext path
    simp only [Environment.moduleOf, environmentOf, targetOf, hitems.aliases]
  funext path arity
  unfold Environment.means
  rw [hmodule]
  simp only [environmentOf, (h.declaredIn_perm _).mem_iff]

/-- Items fit in another order just as before. -/
theorem fits (h : sources.Rearranged sources') (hsome : sources.items? own = some items)
    (hsome' : sources'.items? own = some items') (hitems : RearrangedItems items items')
    (hfits : Fits sources.load own items) : Fits sources'.load own items' := by
  obtain ⟨source, buffer, hload, hparse⟩ := Sources.items?_eq_some.mp hsome
  obtain ⟨source', buffer', hload', hparse'⟩ := Sources.items?_eq_some.mp hsome'
  refine ⟨hfits.distinct.perm hitems.declarations,
    hitems.selects h.declaredIn_perm hfits.selects, fun f' hf' => ?_⟩
  -- The function stands in the other text as well, with other tokens.
  obtain ⟨f, hf, hforget⟩ := List.mem_map.mp <|
    hitems.functions.mem_iff.mpr (List.mem_map_of_mem hf')
  have hlowered : f.lowered.relabel .forget = f'.lowered.relabel .forget := by
    rw [Function.relabel_lowered, Function.relabel_lowered, hforget]
  rw [← h.means_eq hitems]
  exact (linksAfter_congr (ofSource_environmentOf hload hparse)
    (sourceFunction_of_parse? hparse f hf) (sourceFunction_of_parse? hparse' f' hf')
    hlowered 0 0).mp (hfits.functions f hf)

theorem accepts (h : sources.Rearranged sources') (haccepts : Accepts sources.load m) :
    Accepts sources'.load m := by
  obtain ⟨items, hsome, hfits⟩ := accepts_iff.mp haccepts
  obtain ⟨hnone, -⟩ | ⟨items₀, items', hsome₀, hsome', hitems⟩ := h.none_or_some m
  · cases hsome.symm.trans hnone
  · cases hsome.symm.trans hsome₀
    exact accepts_iff.mpr ⟨items', hsome', h.fits hsome hsome' hitems hfits⟩

end Sources.Rearranged

/-- **The order of declarations does not matter.** Let the items of modules be rearranged in such a
way that imports and submodules follow one another as before, with functions and globals anywhere
among them. A compilation on a new compiler succeeds then just if it did before. -/
theorem compileEntry_rearranged (hbounded : sources.Bounded) (hbounded' : sources'.Bounded)
    (h : sources.Rearranged sources') (entry : ModulePath) :
    (∃ r, compileEntry sources entry .empty = .ok () r) ↔
      ∃ r, compileEntry sources' entry .empty = .ok () r := by
  have hrefers : Refers sources.load = Refers sources'.load := by
    funext own target
    exact propext h.refers_iff
  have haccepts : ∀ m, Accepts sources.load m ↔ Accepts sources'.load m := fun m =>
    ⟨h.accepts, h.symm.accepts⟩
  rw [compileEntry_succeeds_iff hbounded, compileEntry_succeeds_iff hbounded']
  simp only [Compiles, hrefers, haccepts]

/-- The text of a module that calls two others. -/
def caller : String :=
  "import c\nfn f(): void \x7b\na.f()\n\x7d\nglobal n: i32\nfn g(): i32 \x7b\nreturn b.f(n)\n\x7d\n"

/-- The same module with its last two items before the others. -/
def rotatedCaller : String :=
  "global n: i32\nfn g(): i32 \x7b\nreturn b.f(n)\n\x7d\nimport c\nfn f(): void \x7b\na.f()\n\x7d\n"

/-- Such a module, and all that it refers to. -/
def withCalled (main : String) : Sources :=
  .ofList [(⟨["main"]⟩, main), (⟨["a"]⟩, "pub fn f() \x7b \x7d"),
    (⟨["b"]⟩, "pub fn f(n: i32): i32 \x7b return n \x7d"), (⟨["c"]⟩, "")]

/-- The first two items of the module that calls others, and the last two. -/
def callerItems : List Item × List Item :=
  ([.imports ⟨0, ⟨["c"]⟩, []⟩,
    .function ⟨0, "f", false, [], .void, 0, none, [], [.eval 0 [.call 0 ["a", "f"] 0 []]]⟩],
   [.global ⟨0, "n", .i32, true, false, none⟩,
    .function ⟨0, "g", false, [], .i32, 0, none, [],
      [.ret 0 [.var 0 ["n"] none, .call 0 ["b", "f"] 1 []]]⟩])

theorem caller_eq_sourceText : caller = sourceText (callerItems.1 ++ callerItems.2) := by
  decide +kernel

theorem rotatedCaller_eq_sourceText :
    rotatedCaller = sourceText (callerItems.2 ++ callerItems.1) := by
  decide +kernel

theorem rearranged_caller : (withCalled caller).Rearranged (withCalled rotatedCaller) := by
  have hitems : RearrangedItems (callerItems.1 ++ callerItems.2)
      (callerItems.2 ++ callerItems.1) := ⟨List.perm_append_comm.map _, rfl⟩
  have hmain : Source.Rearranged ⟨"main.eb", caller⟩ ⟨"main.eb", rotatedCaller⟩ := by
    rw [caller_eq_sourceText, rotatedCaller_eq_sourceText]
    exact Source.rearranged_sourceText _ _ (by decide) (by decide) hitems
  exact Sources.rearranged_ofList <|
    .cons ⟨rfl, hmain⟩ (List.forall₂_same.mpr fun t _ => ⟨rfl, .refl _⟩)

/-- The modules `a` and `b` are compiled in another order. -/
theorem compileEntry_rearranged_caller :
    (withCalled caller).Rearranged (withCalled rotatedCaller) ∧
    (remaining (compileEntry (withCalled caller) ⟨["main"]⟩ .empty)).paths =
      [⟨["main"]⟩, ⟨["c"]⟩, ⟨["a"]⟩, ⟨["b"]⟩] ∧
    (remaining (compileEntry (withCalled rotatedCaller) ⟨["main"]⟩ .empty)).paths =
      [⟨["main"]⟩, ⟨["c"]⟩, ⟨["b"]⟩, ⟨["a"]⟩] ∧
    (∃ r, compileEntry (withCalled caller) ⟨["main"]⟩ .empty = .ok () r) ∧
    ∃ r, compileEntry (withCalled rotatedCaller) ⟨["main"]⟩ .empty = .ok () r := by
  have hfailure : failure? (compileEntry (withCalled caller) ⟨["main"]⟩ .empty) = none := by
    decide +kernel
  have hok := exists_of_failure?_eq_none hfailure
  refine ⟨rearranged_caller, by decide +kernel, by decide +kernel, hok, ?_⟩
  exact (compileEntry_rearranged (Sources.bounded_ofList _) (Sources.bounded_ofList _)
    rearranged_caller ⟨["main"]⟩).mp hok

end Compilation

end FrontEnd
