import FrontEnd.Proofs.Acceptance.Declarations
import FrontEnd.Proofs.Binding.Finished
import FrontEnd.Proofs.Binding.Lookup
import FrontEnd.Proofs.Binding.Tracking
import FrontEnd.Proofs.Runs.Finishing

/-!
# Visibility between modules

Where a name with a dot is bound, the module that its leading segments stand for is the
linked one or has been finished. Either way its symbols show just what its items declare.
So whether the name is bound is a matter of the declarations alone: there must be one of
that name, and of another module only public ones count. The same holds of the names that
an import selects.
-/

namespace FrontEnd

/-- A declaration can be used in the module `own`: it is one of the target's, and public unless the
target is the module itself. -/
def Visible (own target : ModulePath) (ds : List Declaration) (name : String)
    (arity : Option Nat) : Prop :=
  ∃ isPublic, ⟨(name, arity), isPublic⟩ ∈ ds ∧ (target = own ∨ isPublic = true)

theorem declarationsOf_linksTo {own : ModulePath} {items items' : List Item}
    (h : List.Forall₂ (Item.LinksTo own) items items') :
    declarationsOf items' = declarationsOf items := by
  induction h with
  | nil => rfl
  | cons hi _ ih =>
    rw [declarationsOf, declarationsOf, List.filterMap_cons, List.filterMap_cons]
    rw [declarationsOf, declarationsOf] at ih
    rw [ih]
    cases hi <;> rfl

theorem declarationsOf_concat (items : List Item) (i : Item) :
    declarationsOf (items ++ [i]) = declarationsOf items ++ i.declaration?.toList := by
  rw [declarationsOf, List.filterMap_append, declarationsOf]
  cases h : i.declaration? <;> simp [h]

namespace Compilation

open Names (Symbols)
open Text (Position)

variable {site : Site} {own target : ModulePath} {s s' s₁ : Linking} {m : Module}
  {r r' : Registry} {items items' : List Item} {sources : Sources} {depth token : Nat}
  {path : List String} {name : String} {d : Diagnostic}

/-- What a finished module declares. -/
def Registry.declared (r : Registry) (path : ModulePath) : List Declaration :=
  ((r.module? path).map fun m => declarationsOf m.items).getD []

/-- What a module declares, as it is seen where the module `own` is linked, which has some items. -/
def Linking.declaredBy (own : ModulePath) (items : List Item) (s : Linking) (path : ModulePath) :
    List Declaration :=
  if path = own then declarationsOf items else s.registry.declared path

/-- The symbols are those of a module, and show what some items declare. -/
structure ShowsItems (own : ModulePath) (items : List Item) (symbols : Symbols) : Prop where
  names : symbols.Of own
  shows : symbols.Shows (declarationsOf items)

/-! ## What is declared -/

namespace ShowsItems

theorem declaresItem {before : List Item} {i i' : Item}
    (hs : ShowsItems site.own before s.symbols) (h : Link.DeclaresItem site s i i' s') :
    ShowsItems site.own (before ++ [i]) s'.symbols := by
  obtain ⟨hnames, hshows⟩ := hs
  cases h with
  | imports | submodule =>
    refine ⟨hnames.addImport _ _, ?_⟩
    rw [declarationsOf_concat, Item.declaration?, Option.toList_none, List.append_nil]
    · exact hshows.addImport _ _
    all_goals nofun
  | global g hdeclared =>
    refine ⟨hnames.declareGlobal? hdeclared, ?_⟩
    have hnew := Symbols.declareGlobal?_isSome.mp (Option.isSome_of_mem hdeclared)
    rw [hshows.mem_signatures_iff] at hnew
    rw [declarationsOf_concat]
    exact hshows.append (Symbols.declarations_declareGlobal? hdeclared) hnew
  | function f hdeclared =>
    refine ⟨hnames.declareFunction? hdeclared, ?_⟩
    have hnew := Symbols.declareFunction?_isSome.mp (Option.isSome_of_mem hdeclared)
    rw [hshows.mem_signatures_iff] at hnew
    rw [declarationsOf_concat]
    exact hshows.append (Symbols.declarations_declareFunction? hdeclared) hnew

theorem addExternal {symbols : Symbols} (h : ShowsItems own items symbols) (ref : GlobalRef) :
    ShowsItems own items (symbols.addExternal ref) := by
  refine ⟨?_, h.shows.addExternal ref⟩
  unfold Symbols.addExternal
  split
  · exact h.names
  · exact ⟨h.names.functions, h.names.globals, h.names.distinct⟩

theorem targetModule (hs : ShowsItems own items s.symbols) {leading : List String}
    (h : Link.targetModule site leading token s = .ok target s') :
    ShowsItems own items s'.symbols := by
  obtain ⟨-, rfl⟩ | ⟨-, -, registry, -, rfl⟩ := Link.targetModule_eq_ok h
  · exact hs
  · exact ⟨hs.names.addImport _ _, hs.shows.addImport _ _⟩

end ShowsItems

namespace Link

theorem showsItems_start (own : ModulePath) : ShowsItems own [] (Symbols.empty.addImport own own) :=
  ⟨(Symbols.of_empty own).addImport _ _, Symbols.Shows.empty.addImport _ _⟩

theorem showsItems_declareItems
    (h : declareItems site items ⟨r, Symbols.empty.addImport site.own site.own, .closed⟩ =
      .ok items' s) : ShowsItems site.own items s.symbols :=
  declareItems_induction (I := fun before t => ShowsItems site.own before t.symbols) h []
    (showsItems_start site.own) fun hs hitem => hs.declaresItem hitem

/-- Bodies declare nothing. -/
theorem tracker_showsItems (site : Site) (own : ModulePath) (items : List Item) :
    Tracker site (fun _ s => ShowsItems own items s.symbols) fun _ => True where
  scopes h _ := h
  bindsVariable token path := by
    refine Tracks.intro (fun {_ s binding s'} hs hok => ?_) fun _ _ => trivial
    obtain ⟨name, -, rfl, -⟩ | ⟨name, target, s₁, g, -, -, htarget, -, -, rfl⟩ :=
      bindVariable_eq_ok hok
    · exact hs
    · have hs₁ := hs.targetModule htarget
      split
      · exact hs₁
      · exact hs₁.addExternal g.ref
  bindsCall token path arity := by
    refine Tracks.intro (fun {_ s refs s'} hs hok => ?_) fun _ _ => trivial
    obtain rfl | ⟨target, htarget⟩ := bindCall_eq_ok hok
    · exact hs
    · exact hs.targetModule htarget
  redeclared _ _ := trivial

end Link

/-- A module that has come out of linking shows what its items declare. -/
theorem Module.IsLinked.showsItems (h : m.IsLinked) : ShowsItems m.path m.items m.symbols := by
  obtain ⟨site, items, r, r', hlink⟩ := h
  obtain ⟨items', s, hlinked, rfl, rfl⟩ := linkModule_eq_ok hlink
  obtain ⟨declared, s₁, hdeclare, hbodies⟩ := Link.linkItems_eq_ok hlinked
  have htracks := Link.tracks_linkBodies (Link.tracker_showsItems site site.own items) declared
  have hend := htracks.of_ok [] (Link.showsItems_declareItems hdeclare) hbodies
  refine ⟨hend.names, ?_⟩
  rw [declarationsOf_linksTo (Link.linkItems_linksTo hlinked).1]
  exact hend.shows

/-! ## While bodies are linked -/

/-- What is asked for has been finished then, what was finished still is, and all that is finished has
come out of linking. -/
structure Site.Compiles (site : Site) : Prop where
  keepsAll : site.KeepsAll Module.IsLinked
  finished : ∀ {target position r r'}, r.Consistent →
    site.require target position r = .ok () r' → r'.HasFinished target
  kept : ∀ {target position r r' m}, site.require target position r = .ok () r' →
    r.HasFinished m → r'.HasFinished m

theorem compiles_requireFrom (own : ModulePath) (buffer : Token.Buffer) (sources : Sources)
    (depth : Nat) : Site.Compiles ⟨own, buffer, requireFrom sources depth⟩ where
  keepsAll _ _ _ hr := requireFrom_all givenByLinking_isLinked hr
  finished hr h := by
    obtain ⟨order, hcompletes⟩ := requireFrom_completes h
    exact hcompletes.hasFinished hr _ (List.mem_singleton_self _)
  kept h hm := by
    obtain ⟨order, hcompletes⟩ := requireFrom_completes h
    exact (hcompletes.hasFinished_iff _).mpr (.inl hm)

/-- What is known while the bodies of a module are linked: every alias stands for the module itself or
one that has been finished. -/
structure Linking.Prepared (own : ModulePath) (items : List Item) (s : Linking) : Prop where
  finished : s.registry.All Module.IsLinked
  showsItems : ShowsItems own items s.symbols
  reached : ∀ {handle target}, s.symbols.target? handle = some target →
    target = own ∨ s.registry.HasFinished target

/-- A further alias stands for a module that has been finished. -/
theorem Linking.Prepared.import (hsite : site.Compiles) (hs : s.Prepared own items)
    {position : Position} {registry : Registry} (handle : ModulePath)
    (h : site.require target position s.registry = .ok () registry) :
    Linking.Prepared own items
      { s with registry, symbols := s.symbols.addImport handle target } := by
  have hall := hsite.keepsAll target position s.registry hs.finished
  rw [h] at hall
  refine ⟨hall, ⟨hs.showsItems.names.addImport _ _, hs.showsItems.shows.addImport _ _⟩, ?_⟩
  intro other reached hreached
  dsimp only at hreached
  rw [Symbols.target?_addImport] at hreached
  split at hreached
  · cases hreached
    exact .inr (hsite.finished hs.finished.consistent h)
  · exact (hs.reached hreached).imp_right (hsite.kept h)

theorem Linking.Prepared.targetModule (hsite : site.Compiles) (hs : s.Prepared own items)
    {leading : List String} (h : Link.targetModule site leading token s = .ok target s') :
    s'.Prepared own items ∧ (target = own ∨ s'.registry.HasFinished target) := by
  obtain ⟨hknown, rfl⟩ | ⟨-, rfl, registry, hrequire, rfl⟩ := Link.targetModule_eq_ok h
  · exact ⟨hs, hs.reached hknown⟩
  · exact ⟨hs.import hsite _ hrequire, .inr (hsite.finished hs.finished.consistent hrequire)⟩

/-- An import has been granted just if the module that it asks for has been finished. -/
theorem Linking.Prepared.importModule {i : Import} (hsite : site.Compiles)
    (hs : s.Prepared own items)
    (h : Link.importModule site i.target i.target i.token s = .ok () s₁) :
    s₁.Prepared own items ∧ s₁.registry.HasFinished i.target := by
  rw [Link.importModule_apply] at h
  split at h
  · next registry hrequire =>
    cases h
    exact ⟨hs.import hsite i.target hrequire, hsite.finished hs.finished.consistent hrequire⟩
  · cases h

theorem Linking.Prepared.addExternal (hs : s.Prepared own items) (ref : GlobalRef) :
    Linking.Prepared own items { s with symbols := s.symbols.addExternal ref } := by
  have htarget (handle : ModulePath) :
      (s.symbols.addExternal ref).target? handle = s.symbols.target? handle := by
    unfold Symbols.addExternal
    split <;> rfl
  exact ⟨hs.finished, hs.showsItems.addExternal ref, fun {handle target} h =>
    hs.reached ((htarget handle).symm.trans h)⟩

/-- The symbols of a module that is reached show what it declares. -/
theorem Linking.Prepared.symbolsAt (hs : s.Prepared own items)
    (htarget : target = own ∨ s.registry.HasFinished target) :
    (s.symbolsAt own target).Of target ∧
      (s.symbolsAt own target).Shows (s.declaredBy own items target) := by
  unfold Linking.symbolsAt Linking.declaredBy
  by_cases hown : target = own
  · rw [if_pos hown, if_pos hown, hown]
    exact ⟨hs.showsItems.names, hs.showsItems.shows⟩
  · obtain ⟨m, hm⟩ := htarget.resolve_left hown
    obtain ⟨rfl, hlinked⟩ := hs.finished.modules target m hm
    rw [if_neg hown, if_neg hown, Registry.declared, hm]
    exact ⟨hlinked.showsItems.names, hlinked.showsItems.shows⟩

namespace Link

/-- The states that are gone through where the items of a module are linked, from the point on where
all of them have been declared: names have been bound since, in whatever scopes. -/
inductive Visits (site : Site) (items : List Item) (r : Registry) : Linking → Prop
  | declared {items' : List Item} {s : Linking}
    (h : declareItems site items ⟨r, Symbols.empty.addImport site.own site.own, .closed⟩ =
      .ok items' s) : Visits site items r s
  | scopes {s : Linking} (h : Visits site items r s) (scopes : Names.Scopes) :
    Visits site items r { s with scopes }
  | bindVariable {s s' : Linking} {token : Nat} {path : List String} {binding : Binding}
    (h : Visits site items r s) (bound : bindVariable site token path s = .ok binding s') :
    Visits site items r s'
  | bindCall {s s' : Linking} {token arity : Nat} {path : List String} {refs : List FunctionRef}
    (h : Visits site items r s) (bound : bindCall site token path arity s = .ok refs s') :
    Visits site items r s'

/-- A name that is not bound in a state that has been gone through, or a local that is declared
twice. -/
inductive Rejects (site : Site) (items : List Item) (r : Registry) : Diagnostic → Prop
  | bindVariable {s s' : Linking} {token : Nat} {path : List String} {d : Diagnostic}
    (h : Visits site items r s) (failed : bindVariable site token path s = .error d s') :
    Rejects site items r d
  | bindCall {s s' : Linking} {token arity : Nat} {path : List String} {d : Diagnostic}
    (h : Visits site items r s) (failed : bindCall site token path arity s = .error d s') :
    Rejects site items r d
  | redeclared (token : Nat) (name : String) :
    Rejects site items r (site.buffer.locate ⟨token, .variableAlreadyDeclared name⟩)

theorem tracker_visits (site : Site) (items : List Item) (r : Registry) :
    Tracker site (fun _ s => Visits site items r s) (Rejects site items r) where
  scopes h scopes := h.scopes scopes
  bindsVariable _ _ := Tracks.intro (fun hs hok => hs.bindVariable hok) fun hs herror =>
    .bindVariable hs herror
  bindsCall _ _ _ := Tracks.intro (fun hs hok => hs.bindCall hok) fun hs herror =>
    .bindCall hs herror
  redeclared := .redeclared

/-- Where all items have been declared, linking fails only in a state that it has gone through. -/
theorem rejects_of_linkBodies
    (hdeclare : declareItems site items ⟨r, Symbols.empty.addImport site.own site.own, .closed⟩ =
      .ok items' s) (h : linkBodies site items' s = .error d s') : Rejects site items r d :=
  (tracks_linkBodies (tracker_visits site items r) items').of_error [] (.declared hdeclare) h

theorem prepared_declareItems (hsite : site.Compiles) (hr : r.All Module.IsLinked)
    (h : declareItems site items ⟨r, Symbols.empty.addImport site.own site.own, .closed⟩ =
      .ok items' s) : s.Prepared site.own items := by
  have hstart : Linking.Prepared site.own []
      ⟨r, Symbols.empty.addImport site.own site.own, .closed⟩ := by
    refine ⟨hr, showsItems_start site.own, fun {handle target} htarget => ?_⟩
    dsimp only at htarget
    rw [Symbols.target?_addImport] at htarget
    split at htarget <;> cases htarget
    exact .inl rfl
  refine declareItems_induction (I := fun before t => t.Prepared site.own before) h []
    hstart fun {before t i i' t'} ht hitem => ?_
  have hshows := ht.showsItems.declaresItem hitem
  cases hitem with
  | imports i hgranted =>
    have hlater := ht.import hsite i.target hgranted
    exact ⟨hlater.finished, hshows, hlater.reached⟩
  | submodule c hgranted =>
    have hlater := ht.import hsite (.single c.name) hgranted
    exact ⟨hlater.finished, hshows, hlater.reached⟩
  | global g hdeclared =>
    obtain ⟨-, -, rfl⟩ := Symbols.declareGlobal?_eq_some hdeclared
    exact ⟨ht.finished, hshows, ht.reached⟩
  | function f hdeclared =>
    obtain ⟨-, -, -, -, rfl⟩ := Symbols.declareFunction?_eq_some hdeclared
    exact ⟨ht.finished, hshows, ht.reached⟩

theorem Visits.prepared (hsite : site.Compiles) (hr : r.All Module.IsLinked)
    (h : Visits site items r s) : s.Prepared site.own items := by
  induction h with
  | declared h => exact prepared_declareItems hsite hr h
  | scopes _ _ ih => exact ⟨ih.finished, ih.showsItems, ih.reached⟩
  | bindVariable _ bound ih =>
    obtain ⟨name, -, rfl, -⟩ | ⟨name, target, s₁, g, -, -, htarget, -, -, rfl⟩ :=
      bindVariable_eq_ok bound
    · exact ih
    · have hs₁ := (ih.targetModule hsite htarget).1
      split
      · exact hs₁
      · exact hs₁.addExternal g.ref
  | bindCall _ bound ih =>
    obtain rfl | ⟨target, htarget⟩ := bindCall_eq_ok bound
    · exact ih
    · exact (ih.targetModule hsite htarget).1

/-! ## Names -/

/-- A variable with a dot is bound just if the target declares a global of its name that is
visible. -/
theorem bindVariable_visible (hs : s₁.Prepared site.own items)
    (hreached : target = site.own ∨ s₁.registry.HasFinished target)
    (hname : path.getLast? = some name) (hdotted : ¬path.dropLast.isEmpty = true)
    (htarget : targetModule site path.dropLast token s = .ok target s₁) :
    (Visible site.own target (s₁.declaredBy site.own items target) name none →
      ∃ s', bindVariable site token path s = .ok (.global ⟨target, name⟩) s') ∧
    (¬Visible site.own target (s₁.declaredBy site.own items target) name none →
      bindVariable site token path s =
        .error (site.buffer.locate ⟨token, .unresolvedIdentifier (joinDots path)⟩) s₁) := by
  obtain ⟨hnames, hshows⟩ := hs.symbolsAt hreached
  rw [bindVariable_dotted_apply hname hdotted htarget, Visible,
    ← hshows.global?_iff name fun isPublic => target = site.own ∨ isPublic = true]
  cases hg : (s₁.symbolsAt site.own target).global? name with
  | none => exact ⟨by rintro ⟨_, ⟨⟩, _⟩, fun _ => rfl⟩
  | some g =>
    obtain ⟨hmem, rfl⟩ := Symbols.mem_of_global? hg
    have href : g.ref = ⟨target, g.ref.name⟩ := by rw [← hnames.globals g hmem]
    dsimp only
    split
    · next hown =>
      exact ⟨fun _ => ⟨s₁, by rw [← href]⟩, fun hhidden => absurd ⟨g, rfl, .inl hown⟩ hhidden⟩
    · next hother =>
      split
      · next hpublic =>
        exact ⟨fun _ => ⟨_, by rw [← href]⟩, fun hhidden => absurd ⟨g, rfl, .inr hpublic⟩ hhidden⟩
      · next hprivate =>
        refine ⟨fun ⟨g', hg', hvisible⟩ => ?_, fun _ => rfl⟩
        cases hg'
        exact (hvisible.elim hother hprivate).elim

/-- A call with a dot is bound just if the target declares a function of its name, with as many
parameters, that is visible. -/
theorem bindCall_visible (hs : s₁.Prepared site.own items)
    (hreached : target = site.own ∨ s₁.registry.HasFinished target)
    (hname : path.getLast? = some name) (hdotted : ¬path.dropLast.isEmpty = true)
    (htarget : targetModule site path.dropLast token s = .ok target s₁) (arity : Nat) :
    (Visible site.own target (s₁.declaredBy site.own items target) name (some arity) →
      ∃ index, bindCall site token path arity s = .ok [⟨target, name, arity, index⟩] s₁) ∧
    (¬Visible site.own target (s₁.declaredBy site.own items target) name (some arity) →
      bindCall site token path arity s =
        .error (site.buffer.locate ⟨token, .unresolvedIdentifier (joinDots path)⟩) s₁) := by
  obtain ⟨hnames, hshows⟩ := hs.symbolsAt hreached
  have hlen := Symbols.length_functionsOf_le hnames name arity
  rw [bindCall_dotted_apply hname hdotted htarget, Visible,
    ← hshows.functionsOf_iff name arity fun isPublic => target = site.own ∨ isPublic = true]
  have hmem : ∀ f, f ∈ (s₁.symbolsAt site.own target).functionsOf name arity →
      f.ref = ⟨target, name, arity, f.ref.index⟩ := by
    intro f hf
    obtain ⟨hin, rfl, rfl⟩ := Symbols.mem_functionsOf.mp hf
    rw [← hnames.functions f hin]
  generalize (s₁.symbolsAt site.own target).functionsOf name arity = fs at hlen hmem ⊢
  match fs with
  | [] => exact ⟨by rintro ⟨_, ⟨⟩, _⟩, fun _ => rfl⟩
  | [f] =>
    have hf := hmem f (List.mem_singleton_self f)
    by_cases hvisible : target = site.own ∨ f.isPublic = true
    · have hfilter : [f].filter (fun f => decide (target = site.own) || f.isPublic) = [f] := by
        simpa using hvisible
      refine ⟨fun _ => ⟨f.ref.index, ?_⟩, fun hhidden => absurd ⟨f, List.mem_singleton_self f,
        hvisible⟩ hhidden⟩
      rw [hfilter, ← hf]
      rfl
    · have hfilter : [f].filter (fun f => decide (target = site.own) || f.isPublic) = [] := by
        simpa using hvisible
      refine ⟨fun ⟨f', hf', hvisible'⟩ => ?_, fun _ => ?_⟩
      · cases List.mem_singleton.mp hf'
        exact absurd hvisible' hvisible
      · rw [hfilter]
        rfl
  | _ :: _ :: _ =>
    rw [List.length_cons, List.length_cons] at hlen
    omega

/-! ## Selections -/

/-- The names that an import selects are accepted just if each is that of something public, and the
first that is not is rejected. -/
theorem checkSelected_apply (hr : s.registry.All Module.IsLinked)
    (hfinished : s.registry.HasFinished target) (selected : List (Nat × String)) :
    ((∀ n ∈ selected, ∃ arity, ⟨(n.2, arity), true⟩ ∈ s.registry.declared target) →
      checkSelected site target selected s = .ok () s) ∧
    ∀ before n after, selected = before ++ n :: after →
      (∀ n' ∈ before, ∃ arity, ⟨(n'.2, arity), true⟩ ∈ s.registry.declared target) →
      (¬∃ arity, ⟨(n.2, arity), true⟩ ∈ s.registry.declared target) →
      checkSelected site target selected s = .error (site.buffer.locate
        ⟨n.1, .unresolvedIdentifier (joinDots (target.segments ++ [n.2]))⟩) s := by
  obtain ⟨m, hm⟩ := hfinished
  obtain ⟨-, hlinked⟩ := hr.modules target m hm
  have hdeclared : s.registry.declared target = declarationsOf m.items := by
    rw [Registry.declared, hm, Option.map_some, Option.getD_some]
  have hcons : ∀ token name rest, checkSelected site target ((token, name) :: rest) s =
      if m.symbols.exportsName name then checkSelected site target rest s
      else .error (site.buffer.locate
        ⟨token, .unresolvedIdentifier (joinDots (target.segments ++ [name]))⟩) s := by
    intro token name rest
    rw [checkSelected, get_bind_apply]
    simp only [hm]
    cases m.symbols.exportsName name <;> rfl
  simp only [hdeclared, ← hlinked.showsItems.shows.exportsName_iff]
  induction selected with
  | nil => exact ⟨fun _ => rfl, fun before _ _ h => by cases before <;> cases h⟩
  | cons entry rest ih =>
    obtain ⟨token, name⟩ := entry
    rw [hcons]
    refine ⟨fun hall => ?_, fun before n after heq hbefore hn => ?_⟩
    · rw [List.forall_mem_cons] at hall
      rw [if_pos hall.1]
      exact ih.1 hall.2
    · cases before with
      | nil =>
        cases heq
        exact if_neg hn
      | cons first before =>
        cases heq
        rw [List.forall_mem_cons] at hbefore
        rw [if_pos hbefore.1]
        exact ih.2 before n after rfl hbefore.2 hn

theorem dropLast_isEmpty_of_two_le (h : 2 ≤ path.length) : ¬path.dropLast.isEmpty = true := by
  rw [List.isEmpty_iff_length_eq_zero, List.length_dropLast]
  omega

/-- Where an import has been granted, its item is accepted or rejected for what it selects. -/
theorem declareItem_imports_apply {i : Import}
    (h : importModule site i.target i.target i.token s = .ok () s₁) :
    declareItem site (.imports i) s =
      (do checkSelected site i.target i.selected; return .imports i : Link Item) s₁ := by
  rw [declareItem, bind_apply_of_eq_ok h]

/-- **Which names of other modules are bound.** Let a module be linked where everything finished so
far has come out of linking, as it has in every session (`filesAfter_all`). Wherever a name with a dot
is bound and its leading segments lead to a module, that is the linked one or a finished one. The name
is bound just if that module declares a global of its name, or for a call a function of its name with
as many parameters, which is public unless the module is the linked one; and if it is not bound, it is
reported as it is written, where it is written. An import is accepted just if everything that it
selects is the name of something public, and the first that is not is reported with the path of the
target in front. Bodies are rejected for nothing but such names and locals declared twice. -/
theorem visibility_exact (own : ModulePath) (buffer : Token.Buffer) (sources : Sources)
    (depth : Nat) (items : List Item) {r : Registry} (hr : r.All Module.IsLinked) :
    let site : Site := ⟨own, buffer, requireFrom sources depth⟩
    let start : Linking := ⟨r, Symbols.empty.addImport own own, .closed⟩
    (∀ {s s₁ : Linking} {token : Nat} {path : List String} {name : String} {target : ModulePath},
      Visits site items r s → path.getLast? = some name → 2 ≤ path.length →
      targetModule site path.dropLast token s = .ok target s₁ →
      let ds := s₁.declaredBy own items target
      let d := buffer.locate ⟨token, .unresolvedIdentifier (joinDots path)⟩
      (target = own ∨ s₁.registry.HasFinished target) ∧
      (Visible own target ds name none →
        ∃ s', bindVariable site token path s = .ok (.global ⟨target, name⟩) s') ∧
      (¬Visible own target ds name none → bindVariable site token path s = .error d s₁) ∧
      ∀ arity, (Visible own target ds name (some arity) →
          ∃ index, bindCall site token path arity s = .ok [⟨target, name, arity, index⟩] s₁) ∧
        (¬Visible own target ds name (some arity) →
          bindCall site token path arity s = .error d s₁)) ∧
    (∀ {before before' after : List Item} {i : Import} {s s₁ : Linking},
      items = before ++ .imports i :: after → declareItems site before start = .ok before' s →
      importModule site i.target i.target i.token s = .ok () s₁ →
      let ds := s₁.registry.declared i.target
      ((∀ n ∈ i.selected, ∃ arity, ⟨(n.2, arity), true⟩ ∈ ds) →
        declareItem site (.imports i) s = .ok (.imports i) s₁) ∧
      ∀ first n rest, i.selected = first ++ n :: rest →
        (∀ n' ∈ first, ∃ arity, ⟨(n'.2, arity), true⟩ ∈ ds) →
        (¬∃ arity, ⟨(n.2, arity), true⟩ ∈ ds) →
        declareItem site (.imports i) s = .error (buffer.locate
          ⟨n.1, .unresolvedIdentifier (joinDots (i.target.segments ++ [n.2]))⟩) s₁) ∧
    ∀ {declared : List Item} {s s' : Linking} {d : Diagnostic},
      declareItems site items start = .ok declared s → linkBodies site declared s = .error d s' →
      Rejects site items r d := by
  intro site start
  have hsite : site.Compiles := compiles_requireFrom own buffer sources depth
  refine ⟨fun hs hname hlength htarget => ?_, fun hitems hdeclare himport => ?_,
    rejects_of_linkBodies⟩
  · obtain ⟨hs₁, hreached⟩ := (hs.prepared hsite hr).targetModule hsite htarget
    have hdotted := dropLast_isEmpty_of_two_le hlength
    obtain ⟨hbound, hrejected⟩ := bindVariable_visible hs₁ hreached hname hdotted htarget
    exact ⟨hreached, hbound, hrejected, bindCall_visible hs₁ hreached hname hdotted htarget⟩
  · have hs := prepared_declareItems hsite hr hdeclare
    obtain ⟨hs₁, hfinished⟩ := hs.importModule hsite himport
    rw [declareItem_imports_apply himport]
    obtain ⟨haccepted, hrejected⟩ := checkSelected_apply hs₁.finished hfinished _
    refine ⟨fun hall => ?_, fun first n rest hselected hfirst hn => ?_⟩
    · rw [bind_apply_of_eq_ok (haccepted hall)]
      rfl
    · rw [bind_apply_of_eq_error (hrejected first n rest hselected hfirst hn)]

/-- A module with a global and a function of one argument that are public, and a function of the same
name with two arguments that is not. -/
def oneHidden : Sources :=
  .ofList [(⟨["lib"]⟩, "pub global g: i32\npub fn f(x: i32) \x7b\x7d\nfn f(x: i32, y: i32) \x7b\x7d")]

/-- What that module declares. -/
def offered : List Declaration :=
  [⟨("g", none), true⟩, ⟨("f", some 1), true⟩, ⟨("f", some 2), false⟩]

/-- A text that reads the global of that module and calls both functions. -/
def callsHidden : Source := ⟨"main", "fn main() \x7b\nx := lib.g\nlib.f(x)\nlib.f(x, x)\n\x7d"⟩

/-- A text that selects a name that the module offers, and one that it does not. -/
def selectsHidden : Source := ⟨"main", "import lib.[f, h]"⟩

/-- The import that is the only item of a module. -/
def soleImport? : List Item → Option Import
  | [.imports i] => some i
  | _ => none

theorem soleImport?_eq_some {i : Import} (h : soleImport? items = some i) :
    items = [.imports i] := by
  unfold soleImport? at h
  split at h
  · cases h
    rfl
  · cases h

/-- The module `main` where it is linked beside that module. -/
def besideHidden (buffer : Token.Buffer) : Site := ⟨⟨["main"]⟩, buffer, requireFrom oneHidden 1⟩

/-- The module `main` before anything is declared in it. -/
def undeclared : Linking := ⟨.empty, Symbols.empty.addImport ⟨["main"]⟩ ⟨["main"]⟩, .closed⟩

/-- A view of what a step of linking gives. -/
def given? {α β : Type} (view : α → Linking → β) : EStateM.Result Diagnostic Linking α → Option β
  | .ok a s => some (view a s)
  | .error _ _ => none

theorem exists_of_given? {α β : Type} {view : α → Linking → β}
    {result : EStateM.Result Diagnostic Linking α} {b : β} (h : given? view result = some b) :
    ∃ a s, result = .ok a s ∧ view a s = b := by
  cases result with
  | ok a s => exact ⟨a, s, rfl, Option.some.inj h⟩
  | error d s => cases h

/-- Where the items of `callsHidden` have been declared, each of its dotted names leads to the other
module, and its bodies fail at the last one. -/
theorem callsHidden_declared : ∃ buffer items declared s,
    callsHidden.parse? = some (buffer, items) ∧
    declareItems (besideHidden buffer) items undeclared = .ok declared s ∧
    (∀ token ∈ [9, 11, 16], ∃ s₁,
      targetModule (besideHidden buffer) ["lib"] token s = .ok ⟨["lib"]⟩ s₁ ∧
        s₁.declaredBy ⟨["main"]⟩ items ⟨["lib"]⟩ = offered) ∧
    buffer.locate ⟨16, .unresolvedIdentifier (joinDots ["lib", "f"])⟩ =
      ⟨.unresolvedIdentifier "lib.f", ⟨32, "main"⟩⟩ ∧
    ∃ s', linkBodies (besideHidden buffer) declared s =
      .error ⟨.unresolvedIdentifier "lib.f", ⟨32, "main"⟩⟩ s' := by
  let d : Diagnostic := ⟨.unresolvedIdentifier "lib.f", ⟨32, "main"⟩⟩
  have hview : (callsHidden.parse?.bind fun p => given? (fun declared s =>
        ([9, 11, 16].map fun token => given? (fun target s₁ =>
          (target, s₁.declaredBy ⟨["main"]⟩ p.2 target))
          (targetModule (besideHidden p.1) ["lib"] token s),
        p.1.locate ⟨16, .unresolvedIdentifier (joinDots ["lib", "f"])⟩,
        failure? (linkBodies (besideHidden p.1) declared s)))
        (declareItems (besideHidden p.1) p.2 undeclared)) =
      some (List.replicate 3 (some (⟨["lib"]⟩, offered)), d, some d) := by
    decide +kernel
  obtain ⟨⟨buffer, items⟩, hparse, hdeclare⟩ := Option.bind_eq_some_iff.mp hview
  obtain ⟨declared, s, hdeclare, hstate⟩ := exists_of_given? hdeclare
  obtain ⟨htargets, hrest⟩ := Prod.mk.inj hstate
  obtain ⟨hlocate, hbodies⟩ := Prod.mk.inj hrest
  refine ⟨buffer, items, declared, s, hparse, hdeclare, fun token htoken => ?_, hlocate,
    exists_of_failure? hbodies⟩
  obtain ⟨target, s₁, htarget, hshown⟩ := exists_of_given? <|
    (List.eq_replicate_iff.mp htargets).2 _ (List.mem_map_of_mem htoken)
  obtain ⟨rfl, hds⟩ := Prod.mk.inj hshown
  exact ⟨s₁, htarget, hds⟩

/-- The module that `selectsHidden` asks for is compiled. -/
theorem selectsHidden_imported : ∃ buffer s,
    selectsHidden.parse? = some (buffer, [.imports ⟨0, ⟨["lib"]⟩, [(4, "f"), (6, "h")]⟩]) ∧
    importModule (besideHidden buffer) ⟨["lib"]⟩ ⟨["lib"]⟩ 0 undeclared = .ok () s ∧
    s.registry.declared ⟨["lib"]⟩ = offered ∧
    buffer.locate ⟨6, .unresolvedIdentifier (joinDots ["lib", "h"])⟩ =
      ⟨.unresolvedIdentifier "lib.h", ⟨15, "main"⟩⟩ := by
  have hview : (selectsHidden.parse?.bind fun p => (soleImport? p.2).map fun i =>
        (i, given? (fun _ s => s.registry.declared i.target)
          (importModule (besideHidden p.1) i.target i.target i.token undeclared),
        p.1.locate ⟨6, .unresolvedIdentifier (joinDots ["lib", "h"])⟩)) =
      some (⟨0, ⟨["lib"]⟩, [(4, "f"), (6, "h")]⟩, some offered,
        ⟨.unresolvedIdentifier "lib.h", ⟨15, "main"⟩⟩) := by
    decide +kernel
  obtain ⟨⟨buffer, items⟩, hparse, himports⟩ := Option.bind_eq_some_iff.mp hview
  obtain ⟨i, hsole, himport⟩ := Option.map_eq_some_iff.mp himports
  obtain ⟨rfl, hseen⟩ := Prod.mk.inj himport
  obtain ⟨hshown, hlocate⟩ := Prod.mk.inj hseen
  obtain ⟨⟨⟩, s, himported, hds⟩ := exists_of_given? hshown
  obtain rfl := soleImport?_eq_some hsole
  exact ⟨buffer, s, hparse, himported, hds, hlocate⟩

theorem visibility_oneHidden :
    (∃ buffer items declared s, callsHidden.parse? = some (buffer, items) ∧
      declareItems (besideHidden buffer) items undeclared = .ok declared s ∧
      let d : Diagnostic := ⟨.unresolvedIdentifier "lib.f", ⟨32, "main"⟩⟩
      (∃ s', bindVariable (besideHidden buffer) 9 ["lib", "g"] s =
        .ok (.global ⟨⟨["lib"]⟩, "g"⟩) s') ∧
      (∃ index s', bindCall (besideHidden buffer) 11 ["lib", "f"] 1 s =
        .ok [⟨⟨["lib"]⟩, "f", 1, index⟩] s') ∧
      (∃ s', bindCall (besideHidden buffer) 16 ["lib", "f"] 2 s = .error d s') ∧
      (∃ s', linkBodies (besideHidden buffer) declared s = .error d s') ∧
      Rejects (besideHidden buffer) items .empty d) ∧
    ∃ buffer i s, selectsHidden.parse? = some (buffer, [.imports i]) ∧
      declareItem (besideHidden buffer) (.imports i) undeclared =
        .error ⟨.unresolvedIdentifier "lib.h", ⟨15, "main"⟩⟩ s := by
  constructor
  · obtain ⟨buffer, items, declared, s, hparse, hdeclare, hseen, hlocate, s', hbodies⟩ :=
      callsHidden_declared
    obtain ⟨hnames, -, hfails⟩ :=
      visibility_exact ⟨["main"]⟩ buffer oneHidden 1 items Registry.All.empty
    have hvisits : Visits (besideHidden buffer) items .empty s := .declared hdeclare
    have hg : ["lib", "g"].getLast? = some "g" := rfl
    have hf : ["lib", "f"].getLast? = some "f" := rfl
    refine ⟨buffer, items, declared, s, hparse, hdeclare, ?_, ?_, ?_, ⟨s', hbodies⟩,
      hfails hdeclare hbodies⟩
    · obtain ⟨s₁, htarget, hds⟩ := hseen 9 (by decide)
      obtain ⟨-, hvariable, -, -⟩ := hnames hvisits hg (by decide) htarget
      rw [hds] at hvariable
      exact hvariable ⟨true, by decide, .inr rfl⟩
    · obtain ⟨s₁, htarget, hds⟩ := hseen 11 (by decide)
      obtain ⟨-, -, -, hcall⟩ := hnames hvisits hf (by decide) htarget
      rw [hds] at hcall
      obtain ⟨index, hok⟩ := (hcall 1).1 ⟨true, by decide, .inr rfl⟩
      exact ⟨index, s₁, hok⟩
    · obtain ⟨s₁, htarget, hds⟩ := hseen 16 (by decide)
      obtain ⟨-, -, -, hcall⟩ := hnames hvisits hf (by decide) htarget
      rw [hds, hlocate] at hcall
      refine ⟨s₁, (hcall 2).2 ?_⟩
      rintro ⟨isPublic, hmem, hown | rfl⟩
      · exact absurd hown (by decide)
      · exact absurd hmem (by decide)
  · obtain ⟨buffer, s, hparse, himport, hds, hlocate⟩ := selectsHidden_imported
    let i : Import := ⟨0, ⟨["lib"]⟩, [(4, "f"), (6, "h")]⟩
    obtain ⟨-, hselections, -⟩ :=
      visibility_exact ⟨["main"]⟩ buffer oneHidden 1 [.imports i] Registry.All.empty
    have hdeclare : declareItems (besideHidden buffer) [] undeclared = .ok [] undeclared := rfl
    have hitems : [Item.imports i] = [] ++ .imports i :: [] := rfl
    obtain ⟨-, hselected⟩ := hselections hitems hdeclare himport
    rw [hds] at hselected
    have hoffered : ∀ n ∈ [(4, "f")], ∃ arity, ⟨(n.2, arity), true⟩ ∈ offered :=
      List.forall_mem_singleton.mpr ⟨some 1, by decide⟩
    have hmissing : ¬∃ arity, ⟨("h", arity), true⟩ ∈ offered := by
      rintro ⟨arity, hmem⟩
      simp [offered] at hmem
    have hrejected : declareItem (besideHidden buffer) (.imports i) undeclared = .error
        (buffer.locate ⟨6, .unresolvedIdentifier (joinDots ["lib", "h"])⟩) s :=
      hselected [(4, "f")] (6, "h") [] rfl hoffered hmissing
    rw [hlocate] at hrejected
    exact ⟨buffer, i, s, hparse, hrejected⟩

end Link

end Compilation

end FrontEnd
