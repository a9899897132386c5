import FrontEnd.Proofs.Acceptance.Aliases
import FrontEnd.Proofs.Binding.Lookup
import FrontEnd.Proofs.Binding.Tracking

/-!
# The aliases of a module

A module can name itself by its own path, what it imports by the path of that, and a
submodule by its name alone. All of these go into one table, in which a later alias hides
an equal earlier one. So what an alias stands for is what it has been made for last. Bodies
make further aliases, but none that hides another, and each stands for itself.
-/

namespace FrontEnd

theorem find?_map_eq_lookup {α β : Type} [BEq α] [LawfulBEq α] (l : List (α × β)) (key : α) :
    (l.find? (·.1 == key)).map (·.2) = l.lookup key := by
  induction l with
  | nil => rfl
  | cons entry rest ih =>
    rw [List.find?_cons, List.lookup_cons, BEq.comm (a := key)]
    split
    · rfl
    · exact ih

theorem eq_of_mem_of_lookup {α β : Type} [BEq α] [LawfulBEq α] {l : List (α × β)} {key : α}
    {value : β} (hmem : (key, value) ∈ l) (hagree : ∀ e ∈ l, ∀ e' ∈ l, e.1 = e'.1 → e.2 = e'.2) :
    l.lookup key = some value := by
  obtain ⟨other, hother⟩ := Option.isSome_iff_exists.mp
    (List.lookup_isSome_iff.mpr ⟨(key, value), hmem, BEq.rfl⟩)
  obtain ⟨before, after, rfl, -⟩ := List.lookup_eq_some_iff.mp hother
  have hin : (key, other) ∈ before ++ (key, other) :: after :=
    List.mem_append_right before List.mem_cons_self
  exact hother.trans (congrArg some (hagree _ hin _ hmem rfl))

namespace Names.Symbols

theorem target?_eq_lookup (s : Symbols) (handle : ModulePath) :
    s.target? handle = s.imports.lookup handle :=
  find?_map_eq_lookup s.imports handle

end Names.Symbols

namespace Compilation

open Names (Symbols)

variable {site : Site} {s s' : Linking} {m : Module} {r r' : Registry} {items items' : List Item}
  {entries : List (ModulePath × ModulePath)}

/-- The aliases of some entries stand for what the latest entry says. Each further one stands for
itself. -/
structure Linking.Answers (entries : List (ModulePath × ModulePath)) (s : Linking) : Prop where
  declared : ∀ {handle target}, entries.lookup handle = some target →
    s.symbols.target? handle = some target
  further : ∀ {handle target}, entries.lookup handle = none →
    s.symbols.target? handle = some target → target = handle

namespace Linking.Answers

theorem of_imports (h : s.symbols.imports = entries) : s.Answers entries := by
  constructor
  · intro handle target hlookup
    rw [Symbols.target?_eq_lookup, h, hlookup]
  · intro handle target hlookup htarget
    rw [Symbols.target?_eq_lookup, h, hlookup] at htarget
    cases htarget

theorem congr (h : s.Answers entries) (heq : s'.symbols.imports = s.symbols.imports) :
    s'.Answers entries := by
  have htarget : ∀ handle, s'.symbols.target? handle = s.symbols.target? handle := by
    intro handle
    rw [Symbols.target?, Symbols.target?, heq]
  exact ⟨fun hlookup => (htarget _).trans (h.declared hlookup),
    fun hlookup hs' => h.further hlookup ((htarget _).symm.trans hs')⟩

/-- What is no alias yet becomes one for itself. -/
theorem addImport (h : s.Answers entries) {handle : ModulePath}
    (hnew : s.symbols.target? handle = none)
    (heq : s'.symbols.imports = (s.symbols.addImport handle handle).imports) :
    s'.Answers entries := by
  have htarget : ∀ other, s'.symbols.target? other =
      if other = handle then some handle else s.symbols.target? other := by
    intro other
    rw [← Symbols.target?_addImport, Symbols.target?, Symbols.target?, heq]
  constructor
  · intro other target hlookup
    have hold := h.declared hlookup
    rw [htarget, if_neg, hold]
    rintro rfl
    rw [hnew] at hold
    cases hold
  · intro other target hlookup hs'
    rw [htarget] at hs'
    split at hs'
    · next heq =>
      cases hs'
      exact heq.symm
    · exact h.further hlookup hs'

end Linking.Answers

namespace Link

theorem answers_targetModule (hs : s.Answers entries) {leading : List String} {token : Nat}
    {target : ModulePath} (h : targetModule site leading token s = .ok target s') :
    s'.Answers entries := by
  obtain ⟨-, rfl⟩ | ⟨hnew, -, registry, -, rfl⟩ := targetModule_eq_ok h
  · exact hs
  · exact hs.addImport hnew rfl

/-- Bodies make no alias that hides another. -/
theorem tracker_answers (site : Site) (entries : List (ModulePath × ModulePath)) :
    Tracker site (fun _ s => s.Answers entries) fun _ => True where
  scopes h _ := h.congr rfl
  bindsVariable token path := by
    refine Tracks.intro (fun {_ s binding s'} hs hok => ?_) fun _ _ => trivial
    obtain ⟨name, -, rfl, -⟩ | ⟨name, target, s₁, g, -, -, htarget, -, -, rfl⟩ :=
      bindVariable_eq_ok hok
    · exact hs
    · refine (answers_targetModule hs htarget).congr ?_
      split
      · rfl
      · unfold Symbols.addExternal
        split <;> rfl
  bindsCall token path arity := by
    refine Tracks.intro (fun {_ s refs s'} hs hok => ?_) fun _ _ => trivial
    obtain rfl | ⟨target, htarget⟩ := bindCall_eq_ok hok
    · exact hs
    · exact answers_targetModule hs htarget
  redeclared _ _ := trivial

/-- Each import and each submodule makes its alias where it is declared. -/
theorem imports_declareItems (h : declareItems site items s = .ok items' s') :
    s'.symbols.imports =
      ((items.flatMap (Item.requests site.own)).map Request.entry).reverse ++ s.symbols.imports := by
  refine declareItems_induction (I := fun before t => t.symbols.imports =
    ((before.flatMap (Item.requests site.own)).map Request.entry).reverse ++ s.symbols.imports)
    h [] rfl fun {before t i i' t'} ht hitem => ?_
  rw [List.flatMap_append, List.flatMap_singleton, List.map_append, List.reverse_append,
    List.append_assoc, ← ht]
  cases hitem with
  | imports | submodule => rfl
  | global g hdeclared =>
    obtain ⟨-, -, rfl⟩ := Symbols.declareGlobal?_eq_some hdeclared
    rfl
  | function f hdeclared =>
    obtain ⟨-, -, -, -, rfl⟩ := Symbols.declareFunction?_eq_some hdeclared
    rfl

end Link

theorem answers_of_linkModule (h : linkModule site items r = .ok m r') :
    (∀ {handle target}, (aliasesOf site.own items).lookup handle = some target →
      m.symbols.target? handle = some target) ∧
    ∀ {handle target}, (aliasesOf site.own items).lookup handle = none →
      m.symbols.target? handle = some target → target = handle := by
  obtain ⟨items', s, hlinked, rfl, rfl⟩ := linkModule_eq_ok h
  obtain ⟨declared, s₁, hdeclare, hbodies⟩ := Link.linkItems_eq_ok hlinked
  have hdeclared : s₁.Answers (aliasesOf site.own items) :=
    .of_imports (Link.imports_declareItems hdeclare)
  have htracker := Link.tracker_answers site (aliasesOf site.own items)
  have htracks := Link.tracks_linkBodies htracker declared
  have hend := htracks.of_ok [] hdeclared hbodies
  exact ⟨hend.declared, hend.further⟩

theorem own_mem_aliasesOf (own : ModulePath) (items : List Item) :
    (own, own) ∈ aliasesOf own items :=
  List.mem_append_right _ (List.mem_singleton_self _)

theorem entry_mem_aliasesOf (own : ModulePath) {i : Item} {q : Request} (hi : i ∈ items)
    (hq : q ∈ i.requests own) : q.entry ∈ aliasesOf own items :=
  List.mem_append_left _ <| List.mem_reverse.mpr <| List.mem_map_of_mem <|
    List.mem_flatMap.mpr ⟨i, hi, hq⟩

/-- **What the aliases of a module stand for.** The own path, the paths of imports and the names of
submodules stand for what they have been made for last, and any further alias for itself. So if no
two of them are equal but stand for different modules, the own path stands for the module itself, the
target of an import for that, and the name of a submodule for the submodule. -/
theorem target?_linkModule (h : linkModule site items r = .ok m r') :
    (∀ handle target, (aliasesOf site.own items).lookup handle = some target →
      m.symbols.target? handle = some target) ∧
    (∀ handle target, (aliasesOf site.own items).lookup handle = none →
      m.symbols.target? handle = some target → target = handle) ∧
    ((∀ e ∈ aliasesOf site.own items, ∀ e' ∈ aliasesOf site.own items, e.1 = e'.1 → e.2 = e'.2) →
      m.symbols.target? site.own = some site.own ∧
      (∀ i, .imports i ∈ items → m.symbols.target? i.target = some i.target) ∧
      ∀ c, .submodule c ∈ items →
        m.symbols.target? (.single c.name) = some (site.own.child c.name)) := by
  obtain ⟨hdeclared, hfurther⟩ := answers_of_linkModule h
  refine ⟨fun _ _ => hdeclared, fun _ _ => hfurther, fun hagree => ⟨?_, fun i hi => ?_,
    fun c hc => ?_⟩⟩
  · exact hdeclared (eq_of_mem_of_lookup (own_mem_aliasesOf site.own items) hagree)
  · have hentry := entry_mem_aliasesOf site.own hi (List.mem_singleton_self _)
    exact hdeclared (eq_of_mem_of_lookup hentry hagree)
  · have hentry := entry_mem_aliasesOf site.own hc (List.mem_singleton_self _)
    exact hdeclared (eq_of_mem_of_lookup hentry hagree)

/-- `import a.b`, `mod c`, `import c` and `mod m` in a module `m`: the later alias `c` hides the
earlier one, and the submodule `m` hides the module itself. -/
theorem target?_linkModule_hidden :
    let site : Site := ⟨⟨["m"]⟩, ⟨"m.eb", []⟩, fun _ _ => pure ()⟩
    let items : List Item := [.imports ⟨0, ⟨["a", "b"]⟩, []⟩, .submodule ⟨1, "c"⟩,
      .imports ⟨2, ⟨["c"]⟩, []⟩, .submodule ⟨3, "m"⟩]
    ∃ m r', linkModule site items .empty = .ok m r' ∧
      m.symbols.target? ⟨["a", "b"]⟩ = some ⟨["a", "b"]⟩ ∧
      m.symbols.target? ⟨["c"]⟩ = some ⟨["c"]⟩ ∧ m.symbols.target? ⟨["m"]⟩ = some ⟨["m", "m"]⟩ := by
  intro site items
  have hlinked : linkModule site items .empty = .ok _ _ := rfl
  obtain ⟨hdeclared, -, -⟩ := target?_linkModule hlinked
  exact ⟨_, _, hlinked, hdeclared _ _ (by decide), hdeclared _ _ (by decide),
    hdeclared _ _ (by decide)⟩

/-- The module that an alias stands for after a compilation, if it succeeds. -/
def targetAfter (own handle : ModulePath) : EStateM.Result Diagnostic Registry Unit → Option ModulePath
  | .ok _ r => (r.module? own).bind (·.symbols.target? handle)
  | .error _ _ => none

/-- `main` has a submodule of its own name. -/
def submoduleNamedAlike : Sources :=
  .ofList [(⟨["main"]⟩, "mod main\nfn main() \x7b\x7d"), (⟨["main", "main"]⟩, "fn f() \x7b\x7d")]

/-- A module does not always reach itself by its own path. -/
theorem ownPath_hidden_by_submodule :
    ∃ r m, compileEntry submoduleNamedAlike ⟨["main"]⟩ .empty = .ok () r ∧
      r.module? ⟨["main"]⟩ = some m ∧ m.symbols.target? ⟨["main"]⟩ = some ⟨["main", "main"]⟩ := by
  have htarget : targetAfter ⟨["main"]⟩ ⟨["main"]⟩
      (compileEntry submoduleNamedAlike ⟨["main"]⟩ .empty) = some ⟨["main", "main"]⟩ := by
    decide +kernel
  cases h : compileEntry submoduleNamedAlike ⟨["main"]⟩ .empty with
  | error d r =>
    rw [h] at htarget
    cases htarget
  | ok _ r =>
    rw [h] at htarget
    obtain ⟨m, hm, hself⟩ := Option.bind_eq_some_iff.mp htarget
    exact ⟨r, m, rfl, hm, hself⟩

end Compilation

end FrontEnd
