import FrontEnd.Proofs.Linking.Bodies

/-!
# Linking the items of a module

Declaring items adds the names of these items and no others. Linking the bodies
afterwards changes nothing else of an item, so the declared names still describe the
items, and every name in a body has been resolved.
-/

namespace FrontEnd.Compilation

open Names (FunctionSymbol GlobalSymbol Symbols)

/-- Some items have been declared; modules may have been compiled meanwhile. -/
structure Linking.Declares (own : ModulePath) (items : List Item) (s s' : Linking) : Prop where
  grows : s.registry.Grows s'.registry
  ready : s'.Ready own
  functions : ∀ f ∈ s'.symbols.functions, f ∈ s.symbols.functions ∨
    ∃ function, .function function ∈ items ∧ f.Describes function
  globals : ∀ g ∈ s'.symbols.globals, g ∈ s.symbols.globals ∨
    ∃ global, .global global ∈ items ∧ g.Describes global

namespace Linking

variable {own : ModulePath} {s s' s'' : Linking} {items items' : List Item}

theorem Declares.append (h : s.Declares own items s') (h' : s'.Declares own items' s'') :
    s.Declares own (items ++ items') s'' := by
  refine ⟨h.grows.trans h'.grows, h'.ready, fun f hf => ?_, fun g hg => ?_⟩
  · rcases h'.functions f hf with hold | ⟨function, hmem, hd⟩
    · rcases h.functions f hold with hold | ⟨function, hmem, hd⟩
      · exact .inl hold
      · exact .inr ⟨function, List.mem_append_left items' hmem, hd⟩
    · exact .inr ⟨function, List.mem_append_right items hmem, hd⟩
  · rcases h'.globals g hg with hold | ⟨global, hmem, hd⟩
    · rcases h.globals g hold with hold | ⟨global, hmem, hd⟩
      · exact .inl hold
      · exact .inr ⟨global, List.mem_append_left items' hmem, hd⟩
    · exact .inr ⟨global, List.mem_append_right items hmem, hd⟩

theorem Leads.declares (h : s.Leads s') (hs : s.Ready own) (items : List Item) :
    s.Declares own items s' :=
  ⟨h.grows, h.ready hs, fun _ hf => .inl (h.functions ▸ hf), fun _ hg => .inl (h.globals ▸ hg)⟩

theorem declares_global (hs : s.Ready own) {g : Global} {ref : GlobalRef} {symbols : Symbols}
    (h : s.symbols.declareGlobal? own g.name g.type g.isMutable g.isPublic = some (ref, symbols)) :
    s.Declares own [.global { g with uniqueName := some ref.uniqueName }] { s with symbols } := by
  have hof := hs.names.declareGlobal? h
  obtain ⟨-, hname, rfl⟩ := Symbols.declareGlobal?_eq_some h
  refine ⟨.refl _, ⟨hs.sound, hof⟩, fun _ hf => .inl hf, fun g' hg => ?_⟩
  rcases List.mem_append.mp hg with hold | hnew
  · exact .inl hold
  · obtain rfl := List.mem_singleton.mp hnew
    exact .inr ⟨_, List.mem_singleton_self _, hname.symm, rfl, rfl⟩

theorem declares_function (hs : s.Ready own) {f : Function} {ref : FunctionRef} {symbols : Symbols}
    (h : s.symbols.declareFunction? own f.name f.arity f.isPublic = some (ref, symbols)) :
    s.Declares own [.function { f with index := ref.index, uniqueName := some ref.uniqueName }]
      { s with symbols } := by
  have hof := hs.names.declareFunction? h
  obtain ⟨-, -, hname, harity, rfl⟩ := Symbols.declareFunction?_eq_some h
  refine ⟨.refl _, ⟨hs.sound, hof⟩, fun f' hf => ?_, fun _ hg => .inl hg⟩
  rcases List.mem_append.mp hf with hold | hnew
  · exact .inl hold
  · obtain rfl := List.mem_singleton.mp hnew
    exact .inr ⟨_, List.mem_singleton_self _, hname.symm, harity.symm, rfl, rfl, rfl⟩

end Linking

namespace Link

variable {site : Site} {s s' : Linking}

theorem declareParams_leads {params : List Param}
    (h : declareParams site params s = .ok () s') : s.Leads s' := by
  induction params generalizing s with
  | nil =>
    cases h
    exact .refl s'
  | cons p rest ih =>
    rw [declareParams] at h
    obtain ⟨_, s₁, hp, hrest⟩ := exists_of_bind_eq_ok h
    obtain ⟨slot, s₂, hslot, hpure⟩ := exists_of_bind_eq_ok hp
    cases hpure
    exact (declareLocal_leads hslot).trans (ih hrest)

/-- Of a function only the body and the slots are changed. -/
theorem linkFunction_resolved (hsite : site.Reliable) (hs : s.Ready site.own) {f f' : Function}
    (h : linkFunction site f s = .ok f' s') :
    s.Leads s' ∧ Block.Resolved (s'.resolution site.own) f'.body ∧
      ∃ body locals, f' = { f with body, locals } := by
  obtain ⟨_, s₁, hstart, hrest⟩ := exists_of_bind_eq_ok h
  cases hstart
  obtain ⟨_, s₂, hparams, hbody⟩ := exists_of_bind_eq_ok hrest
  have hleads := declareParams_leads hparams
  obtain ⟨body, s₃, hb, hlast⟩ := exists_of_bind_eq_ok hbody
  have hs₁ : Linking.Ready site.own { s with scopes := s.scopes.start } := ⟨hs.sound, hs.names⟩
  obtain ⟨hleads', hresolved⟩ := linkBlock_resolved hsite f.body hb (hleads.ready hs₁)
  cases hlast
  have hall := hleads.trans hleads'
  exact ⟨⟨hall.grows, hall.sound, hall.functions, hall.globals⟩, hresolved, body, _, rfl⟩

theorem checkSelected_eq_ok {target : ModulePath} {selected : List (Nat × String)}
    (h : checkSelected site target selected s = .ok () s') : s' = s := by
  induction selected generalizing s with
  | nil =>
    cases h
    rfl
  | cons entry rest ih =>
    obtain ⟨token, name⟩ := entry
    rw [checkSelected] at h
    obtain ⟨_, _, hget, hrest⟩ := exists_of_bind_eq_ok h
    cases hget
    cases hm : s.registry.module? target with
    | none =>
      simp only [hm] at hrest
      cases hrest
    | some m =>
      simp only [hm] at hrest
      by_cases hexports : m.symbols.exportsName name = true
      · simp only [hexports, Bool.not_true, Bool.false_eq_true, if_false] at hrest
        exact ih hrest
      · simp only [hexports, Bool.not_false, if_true] at hrest
        cases hrest

theorem declareItem_declares (hsite : site.Reliable) (hs : s.Ready site.own) {i i' : Item}
    (h : declareItem site i s = .ok i' s') : s.Declares site.own [i'] s' := by
  cases i with
  | imports i =>
    obtain ⟨_, s₁, himport, hrest⟩ := exists_of_bind_eq_ok h
    obtain ⟨_, s₂, hselected, hpure⟩ := exists_of_bind_eq_ok hrest
    cases hpure
    obtain rfl := checkSelected_eq_ok hselected
    exact (importModule_leads hsite hs.sound himport).declares hs _
  | submodule m =>
    obtain ⟨_, s₁, himport, hpure⟩ := exists_of_bind_eq_ok h
    cases hpure
    exact (importModule_leads hsite hs.sound himport).declares hs _
  | global g =>
    obtain ⟨_, s₁, hget, hrest⟩ := exists_of_bind_eq_ok h
    cases hget
    cases hd : s.symbols.declareGlobal? site.own g.name g.type g.isMutable g.isPublic with
    | none =>
      simp only [hd] at hrest
      cases hrest
    | some declared =>
      obtain ⟨ref, symbols⟩ := declared
      simp only [hd] at hrest
      cases hrest
      exact Linking.declares_global hs hd
  | function f =>
    obtain ⟨_, s₁, hget, hrest⟩ := exists_of_bind_eq_ok h
    cases hget
    cases hd : s.symbols.declareFunction? site.own f.name f.arity f.isPublic with
    | none =>
      simp only [hd] at hrest
      cases hrest
    | some declared =>
      obtain ⟨ref, symbols⟩ := declared
      simp only [hd] at hrest
      cases hrest
      exact Linking.declares_function hs hd

theorem declareItems_declares (hsite : site.Reliable) (hs : s.Ready site.own)
    {items items' : List Item} (h : declareItems site items s = .ok items' s') :
    s.Declares site.own items' s' := by
  induction items generalizing s items' with
  | nil =>
    cases h
    exact (Linking.Leads.refl s').declares hs []
  | cons i rest ih =>
    rw [declareItems] at h
    obtain ⟨i', s₁, hi, htail⟩ := exists_of_bind_eq_ok h
    obtain ⟨rest', s₂, hrest, hpure⟩ := exists_of_bind_eq_ok htail
    cases hpure
    have hd := declareItem_declares hsite hs hi
    exact hd.append (ih hd.ready hrest)

/-- Items with their bodies linked. -/
structure Linked (R : Resolution) (items items' : List Item) : Prop where
  resolved : ∀ f, .function f ∈ items' → Block.Resolved R f.body
  functions : ∀ f, .function f ∈ items → ∃ body locals, .function { f with body, locals } ∈ items'
  globals : ∀ g, .global g ∈ items → .global g ∈ items'

theorem Linked.describe {R : Resolution} {items items' : List Item} {symbols : Symbols}
    (h : Linked R items items') (hd : symbols.Describe items) : symbols.Describe items' where
  functions := by
    intro symbol hsymbol
    obtain ⟨f, hf, hdescribes⟩ := hd.functions symbol hsymbol
    obtain ⟨body, locals, hf'⟩ := h.functions f hf
    exact ⟨_, hf', hdescribes.name, hdescribes.arity, hdescribes.index, hdescribes.uniqueName,
      hdescribes.isPublic⟩
  globals := by
    intro symbol hsymbol
    obtain ⟨g, hg, hdescribes⟩ := hd.globals symbol hsymbol
    exact ⟨g, h.globals g hg, hdescribes⟩

theorem Linked.cons_function {R : Resolution} {items items' : List Item} {f : Function}
    {body : Block} {locals : List Variable} (hbody : Block.Resolved R body)
    (h : Linked R items items') :
    Linked R (.function f :: items) (.function { f with body, locals } :: items') where
  resolved := by
    intro f' hf'
    rcases List.mem_cons.mp hf' with heq | htail
    · cases heq
      exact hbody
    · exact h.resolved f' htail
  functions := by
    intro f' hf'
    rcases List.mem_cons.mp hf' with heq | htail
    · cases heq
      exact ⟨body, locals, List.mem_cons_self⟩
    · obtain ⟨body', locals', hmem⟩ := h.functions f' htail
      exact ⟨body', locals', List.mem_cons_of_mem _ hmem⟩
  globals := by
    intro g hg
    rcases List.mem_cons.mp hg with heq | htail
    · cases heq
    · exact List.mem_cons_of_mem _ (h.globals g htail)

theorem Linked.cons_other {R : Resolution} {items items' : List Item} {i : Item}
    (hi : i.function? = none) (h : Linked R items items') : Linked R (i :: items) (i :: items') where
  resolved := by
    intro f hf
    rcases List.mem_cons.mp hf with heq | htail
    · rw [← heq] at hi
      cases hi
    · exact h.resolved f htail
  functions := by
    intro f hf
    rcases List.mem_cons.mp hf with heq | htail
    · rw [← heq] at hi
      cases hi
    · obtain ⟨body, locals, hmem⟩ := h.functions f htail
      exact ⟨body, locals, List.mem_cons_of_mem _ hmem⟩
  globals := by
    intro g hg
    rcases List.mem_cons.mp hg with heq | htail
    · rw [← heq]
      exact List.mem_cons_self
    · exact List.mem_cons_of_mem _ (h.globals g htail)

theorem linkBodies_linked (hsite : site.Reliable) (hs : s.Ready site.own)
    {items items' : List Item} (h : linkBodies site items s = .ok items' s') :
    s.Leads s' ∧ Linked (s'.resolution site.own) items items' := by
  induction items generalizing s items' with
  | nil =>
    cases h
    exact ⟨.refl s', fun _ hf => absurd hf List.not_mem_nil,
      fun _ hf => absurd hf List.not_mem_nil, fun _ hg => absurd hg List.not_mem_nil⟩
  | cons i rest ih =>
    cases i with
    | function f =>
      rw [linkBodies] at h
      obtain ⟨_, s₁, hi, htail⟩ := exists_of_bind_eq_ok h
      obtain ⟨f', _, hf, hmap⟩ := exists_of_bind_eq_ok hi
      cases hmap
      obtain ⟨rest', s₂, hrest, hpure⟩ := exists_of_bind_eq_ok htail
      cases hpure
      obtain ⟨hleads, hbody, body, locals, rfl⟩ := linkFunction_resolved hsite hs hf
      obtain ⟨hleads', hlinked⟩ := ih (hleads.ready hs) hrest
      have hbody' := Block.Resolved.mono (hleads'.resolution (hleads.ready hs)) body hbody
      exact ⟨hleads.trans hleads', hlinked.cons_function hbody'⟩
    | global | imports | submodule =>
      obtain ⟨_, _, hi, htail⟩ := exists_of_bind_eq_ok h
      cases hi
      obtain ⟨rest', s₁, hrest, hpure⟩ := exists_of_bind_eq_ok htail
      cases hpure
      obtain ⟨hleads, hlinked⟩ := ih hs hrest
      exact ⟨hleads, hlinked.cons_other rfl⟩

/-- All names of the items are declared, and all names in their bodies resolved. -/
theorem linkItems_linked (hsite : site.Reliable) {registry : Registry} (hr : registry.Sound)
    {items items' : List Item}
    (h : linkItems site items ⟨registry, .empty, .closed⟩ = .ok items' s') :
    registry.Grows s'.registry ∧ s'.Ready site.own ∧ s'.symbols.Describe items' ∧
      ∀ f, .function f ∈ items' → Block.Resolved (s'.resolution site.own) f.body := by
  obtain ⟨_, s₁, himport, hrest⟩ := exists_of_bind_eq_ok h
  cases himport
  obtain ⟨declared, s₂, hdeclare, hbodies⟩ := exists_of_bind_eq_ok hrest
  have hready : Linking.Ready site.own
      ⟨registry, Symbols.empty.addImport site.own site.own, .closed⟩ :=
    ⟨hr, (Symbols.of_empty site.own).addImport site.own site.own⟩
  have hd := declareItems_declares hsite hready hdeclare
  obtain ⟨hleads, hlinked⟩ := linkBodies_linked hsite hd.ready hbodies
  have hdescribe : s'.symbols.Describe declared := by
    refine ⟨fun f hf => ?_, fun g hg => ?_⟩
    · rw [hleads.functions] at hf
      exact (hd.functions f hf).resolve_left List.not_mem_nil
    · rw [hleads.globals] at hg
      exact (hd.globals g hg).resolve_left List.not_mem_nil
  exact ⟨hd.grows.trans hleads.grows, hleads.ready hd.ready, hlinked.describe hdescribe,
    hlinked.resolved⟩

end Link

end FrontEnd.Compilation
