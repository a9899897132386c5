import FrontEnd.Proofs.Scoping.Agreement

/-!
# Where linking a module fails

To link a module its items are declared first, and then the bodies of its functions are
linked. If that succeeds, every function is bound as lexical scoping says. If it fails, the
reason is an item that cannot be declared, or a name of a function: one that lexical
scoping rejects, or one that is no matter of scopes.
-/

namespace FrontEnd

open Names (Symbols Scopes)

/-- The names without a dot in the function `f'`, which has been linked, are bound as lexical
scoping says about `f`. -/
structure Function.BoundAs (globals : String → Option GlobalRef) (f f' : Function) : Prop where
  params : f'.params = f.params
  resolve : f.resolve globals = .ok (Block.localSites f'.body)

theorem Function.resolve_congr {f f' : Function} (h : f'.params = f.params ∧ f'.body = f.body)
    (globals : String → Option GlobalRef) : f'.resolve globals = f.resolve globals := by
  rw [Function.resolve, Function.resolve, h.1, h.2]

/-- How a function is bound is a matter of its parameters and its body. -/
theorem Function.BoundAs.of_same {globals : String → Option GlobalRef} {f f' f'' : Function}
    (hsame : f'.params = f.params ∧ f'.body = f.body) (h : f'.BoundAs globals f'') :
    f.BoundAs globals f'' :=
  ⟨h.params.trans hsame.1, (Function.resolve_congr hsame globals).symm.trans h.resolve⟩

namespace Compilation

variable {α β : Type} {site : Site} {globals : String → Option GlobalRef} {s s' : Linking}
  {items items' : List Item} {r r' : Registry} {d : Diagnostic}

namespace Link

/-! ## Bodies -/

theorem heeds_linkFunction (site : Site) (hglobals : s.ShowsGlobals globals) (f : Function) :
    Heeds site (Block.mentions f.body) (f.resolve globals) (fun _ => True)
      (fun f' => Block.localSites f'.body) (linkFunction site f) s := by
  have hparams := declareParams_withParams site (s := { s with scopes := s.scopes.start })
    (Scopes.opens_start s.scopes) f.params
  rw [List.length_nil] at hparams
  unfold linkFunction Function.resolve
  unfold Heeds
  rw [modify_bind_apply]
  cases hσ : LexicalScope.empty.withParams 0 f.params with
  | error fault =>
    rw [hσ] at hparams
    obtain ⟨t, ht⟩ := hparams
    rw [bind_apply_of_eq_error ht]
    exact .inr ⟨fault, rfl, rfl⟩
  | ok σ =>
    rw [hσ] at hparams
    obtain ⟨scopes, hrun, hopens⟩ := hparams
    have htraces : Traces site _ _ _ _ (linkBlock site f.body) { s with scopes } :=
      traces_linkBlock f.body hopens (hglobals.of_eq rfl)
    have hbody := htraces.heeds
    rw [List.nil_append, List.length_map] at hbody
    rw [bind_apply_of_eq_ok hrun]
    cases hlink : linkBlock site f.body { s with scopes } with
    | error d t =>
      rw [bind_apply_of_eq_error hlink]
      exact hbody.of_error hlink
    | ok body t =>
      rw [bind_apply_of_eq_ok hlink]
      obtain ⟨hresolve, -, hkept⟩ := hbody.of_ok hlink
      exact ⟨hresolve, trivial, hkept⟩

/-- Linking bodies binds every function as lexical scoping says, or fails at one of them. -/
theorem linkBodies_boundAs (site : Site) (hglobals : s.ShowsGlobals globals) (items : List Item) :
    match linkBodies site items s with
    | .ok items' _ =>
      List.Forall₂ (Function.BoundAs globals) (functionsOf items) (functionsOf items')
    | .error d _ => ∃ f ∈ functionsOf items, FailsApart site s.registry (Block.mentions f.body) d ∨
        ∃ fault, f.resolve globals = .error fault ∧ d = site.buffer.locate fault := by
  -- The globals stay what they are, so each body is linked under the same hypothesis.
  induction items generalizing s with
  | nil => exact .nil
  | cons i rest ih =>
    cases hrun : linkBodies site (i :: rest) s with
    | ok items' s' =>
      cases i with
      | function f =>
        obtain ⟨_, t, hbody, htail⟩ := exists_of_bind_eq_ok hrun
        obtain ⟨f', _, hlink, hmap⟩ := exists_of_bind_eq_ok hbody
        cases hmap
        obtain ⟨rest', u, hrest, hpure⟩ := exists_of_bind_eq_ok htail
        cases hpure
        obtain ⟨hresolve, -, hsame, -⟩ := (heeds_linkFunction site hglobals f).of_ok hlink
        obtain ⟨_, _, rfl, -⟩ := linkFunction_keeps hlink
        have hlater := ih (hglobals.of_eq hsame)
        rw [hrest] at hlater
        exact .cons ⟨rfl, hresolve⟩ hlater
      | global | imports | submodule =>
        obtain ⟨_, _, hi, htail⟩ := exists_of_bind_eq_ok hrun
        cases hi
        obtain ⟨rest', u, hrest, hpure⟩ := exists_of_bind_eq_ok htail
        cases hpure
        have hlater := ih hglobals
        rw [hrest] at hlater
        exact hlater
    | error d s' =>
      cases i with
      | function f =>
        have hf := heeds_linkFunction site hglobals f
        rcases exists_of_bind_eq_error hrun with hbody | ⟨_, t, hbody, htail⟩
        · rcases exists_of_bind_eq_error hbody with hlink | ⟨_, _, _, hpure⟩
          · exact ⟨f, List.mem_cons_self, hf.of_error hlink⟩
          · cases hpure
        · obtain ⟨f', _, hlink, hmap⟩ := exists_of_bind_eq_ok hbody
          cases hmap
          obtain ⟨-, -, hsame, hleads⟩ := hf.of_ok hlink
          rcases exists_of_bind_eq_error htail with hrest | ⟨_, _, _, hpure⟩
          · have hlater := ih (hglobals.of_eq hsame)
            rw [hrest] at hlater
            obtain ⟨g, hg, hfails⟩ := hlater
            exact ⟨g, List.mem_cons_of_mem _ hg, hfails.imp_left fun h => h.after hleads⟩
          · cases hpure
      | global | imports | submodule =>
        rcases exists_of_bind_eq_error hrun with hi | ⟨_, t, hi, htail⟩
        · cases hi
        · cases hi
          rcases exists_of_bind_eq_error htail with hrest | ⟨_, _, _, hpure⟩
          · have hlater := ih hglobals
            rw [hrest] at hlater
            exact hlater
          · cases hpure

/-! ## Items -/

/-- Why an item of a module cannot be declared: what it asks for is not granted, a selected name is
not offered, or a global or a function like it has been declared before. -/
inductive FailsToDeclare (site : Site) (r : Registry) (items : List Item) : Diagnostic → Prop
  | refused {i : Item} {q : Request} {r₁ r' : Registry} {d : Diagnostic} (mem : i ∈ items)
    (asks : q ∈ i.requests site.own) (leads : site.LeadsTo r r₁)
    (refused : site.require q.target (site.buffer.position q.token) r₁ = .error d r') :
    FailsToDeclare site r items d
  | notOffered {i : Import} {token : Nat} {name : String} (mem : .imports i ∈ items)
    (selected : (token, name) ∈ i.selected) :
    FailsToDeclare site r items
      (site.buffer.locate ⟨token, .unresolvedIdentifier (joinDots (i.target.segments ++ [name]))⟩)
  | global {g : Global} (mem : .global g ∈ items) :
    FailsToDeclare site r items (site.buffer.locate ⟨g.token, .globalAlreadyDeclared g.name⟩)
  | function {f : Function} (mem : .function f ∈ items) :
    FailsToDeclare site r items
      (site.buffer.locate ⟨f.token, .functionAlreadyDeclared f.name f.arity⟩)

namespace FailsToDeclare

theorem mono (h : FailsToDeclare site r items d) (hsub : items ⊆ items') :
    FailsToDeclare site r items' d := by
  cases h with
  | refused mem asks leads refused => exact .refused (hsub mem) asks leads refused
  | notOffered mem selected => exact .notOffered (hsub mem) selected
  | global mem => exact .global (hsub mem)
  | function mem => exact .function (hsub mem)

theorem after (h : FailsToDeclare site r' items d) (hleads : site.LeadsTo r r') :
    FailsToDeclare site r items d := by
  cases h with
  | refused mem asks leads refused => exact .refused mem asks (hleads.trans leads) refused
  | notOffered mem selected => exact .notOffered mem selected
  | global mem => exact .global mem
  | function mem => exact .function mem

/-- The bodies of functions do not matter. -/
theorem of_keeps {view : Block → α} (hkeeps : List.Forall₂ (Item.Keeps view) items items')
    (h : FailsToDeclare site r items' d) : FailsToDeclare site r items d := by
  cases h with
  | refused mem asks leads refused =>
    obtain ⟨i, hi, hkept⟩ := exists_mem_of_forall₂ hkeeps mem
    cases hkept with
    | function => cases asks
    | other => exact .refused hi asks leads refused
  | notOffered mem selected =>
    obtain ⟨i, hi, hkept⟩ := exists_mem_of_forall₂ hkeeps mem
    cases hkept
    exact .notOffered hi selected
  | global mem =>
    obtain ⟨i, hi, hkept⟩ := exists_mem_of_forall₂ hkeeps mem
    cases hkept
    exact .global hi
  | function mem =>
    obtain ⟨i, hi, hkept⟩ := exists_mem_of_forall₂ hkeeps mem
    cases hkept with
    | function f => exact FailsToDeclare.function (f := f) hi
    | other hnone => cases hnone

end FailsToDeclare

theorem checkSelected_eq_error {target : ModulePath} {selected : List (Nat × String)}
    (h : checkSelected site target selected s = .error d s') :
    ∃ token name, (token, name) ∈ selected ∧ d = site.buffer.locate
      ⟨token, .unresolvedIdentifier (joinDots (target.segments ++ [name]))⟩ := by
  induction selected generalizing s with
  | nil => cases h
  | cons entry rest ih =>
    obtain ⟨token, name⟩ := entry
    rw [checkSelected] at h
    have hlater {t : Linking} (hrest : checkSelected site target rest t = .error d s') :
        ∃ token' name', (token', name') ∈ (token, name) :: rest ∧ d = site.buffer.locate
          ⟨token', .unresolvedIdentifier (joinDots (target.segments ++ [name']))⟩ := by
      obtain ⟨token', name', hmem, hd⟩ := ih hrest
      exact ⟨token', name', List.mem_cons_of_mem _ hmem, hd⟩
    rcases exists_of_bind_eq_error h with hget | ⟨_, _, hget, hcheck⟩
    · cases hget
    · cases hget
      cases hm : s.registry.module? target with
      | none =>
        simp only [hm] at hcheck
        cases hcheck
        exact ⟨token, name, List.mem_cons_self, rfl⟩
      | some m =>
        simp only [hm] at hcheck
        by_cases hexports : m.symbols.exportsName name = true
        · simp only [hexports, Bool.not_true, Bool.false_eq_true, if_false] at hcheck
          exact hlater hcheck
        · simp only [hexports, Bool.not_false, if_true] at hcheck
          cases hcheck
          exact ⟨token, name, List.mem_cons_self, rfl⟩

theorem declareItem_eq_error {i : Item} (h : declareItem site i s = .error d s') :
    FailsToDeclare site s.registry [i] d := by
  have hmem : i ∈ [i] := List.mem_singleton_self i
  cases i with
  | imports i =>
    rcases exists_of_bind_eq_error h with himport | ⟨_, _, _, hrest⟩
    · obtain ⟨registry, hrefused⟩ := importModule_eq_error himport
      exact .refused hmem (List.mem_singleton_self _) (.refl _) hrefused
    · rcases exists_of_bind_eq_error hrest with hselected | ⟨_, _, _, hpure⟩
      · obtain ⟨token, name, hname, rfl⟩ := checkSelected_eq_error hselected
        exact .notOffered hmem hname
      · cases hpure
  | submodule m =>
    rcases exists_of_bind_eq_error h with himport | ⟨_, _, _, hpure⟩
    · obtain ⟨registry, hrefused⟩ := importModule_eq_error himport
      exact .refused hmem (List.mem_singleton_self _) (.refl _) hrefused
    · cases hpure
  | global g =>
    rcases exists_of_bind_eq_error h with hget | ⟨_, _, hget, hrest⟩
    · cases hget
    · cases hget
      cases hd : s.symbols.declareGlobal? site.own g.name g.type g.isMutable g.isPublic with
      | none =>
        simp only [hd] at hrest
        cases hrest
        exact .global hmem
      | some declared =>
        simp only [hd] at hrest
        cases hrest
  | function f =>
    rcases exists_of_bind_eq_error h with hget | ⟨_, _, hget, hrest⟩
    · cases hget
    · cases hget
      cases hd : s.symbols.declareFunction? site.own f.name f.arity f.isPublic with
      | none =>
        simp only [hd] at hrest
        cases hrest
        exact .function hmem
      | some declared =>
        simp only [hd] at hrest
        cases hrest

/-- Declaring an item makes at most its requests, and changes neither the parameters nor the body of
a function. -/
theorem declareItem_leadsTo {i i' : Item} (h : declareItem site i s = .ok i' s') :
    site.LeadsTo s.registry s'.registry ∧ List.Forall₂ (fun f f' : Function =>
      f'.params = f.params ∧ f'.body = f.body) (functionsOf [i]) (functionsOf [i']) := by
  cases declareItem_eq_ok h with
  | imports i granted => exact ⟨.single granted, .nil⟩
  | submodule m granted => exact ⟨.single granted, .nil⟩
  | global g => exact ⟨.refl _, .nil⟩
  | function f => exact ⟨.refl _, .cons ⟨rfl, rfl⟩ .nil⟩

/-- Declaring items changes neither the parameters nor the body of a function, or fails at one of
them. -/
theorem declareItems_heeds (site : Site) (items : List Item) :
    match declareItems site items s with
    | .ok items' s' => site.LeadsTo s.registry s'.registry ∧ List.Forall₂ (fun f f' : Function =>
        f'.params = f.params ∧ f'.body = f.body) (functionsOf items) (functionsOf items')
    | .error d _ => FailsToDeclare site s.registry items d := by
  induction items generalizing s with
  | nil => exact ⟨.refl _, .nil⟩
  | cons i rest ih =>
    cases hrun : declareItems site (i :: rest) s with
    | ok items' s' =>
      obtain ⟨i', t, hi, htail⟩ := exists_of_bind_eq_ok hrun
      obtain ⟨rest', u, hrest, hpure⟩ := exists_of_bind_eq_ok htail
      cases hpure
      obtain ⟨hleads, hfunctions⟩ := declareItem_leadsTo hi
      have hlater := ih (s := t)
      rw [hrest] at hlater
      have hcons (j : Item) (js : List Item) :
          functionsOf (j :: js) = functionsOf [j] ++ functionsOf js :=
        List.filterMap_append (l := [j])
      refine ⟨hleads.trans hlater.1, ?_⟩
      rw [hcons i, hcons i']
      exact List.rel_append hfunctions hlater.2
    | error d s' =>
      rcases exists_of_bind_eq_error hrun with hi | ⟨i', t, hi, htail⟩
      · exact (declareItem_eq_error hi).mono (List.cons_subset_cons i (List.nil_subset rest))
      · rcases exists_of_bind_eq_error htail with hrest | ⟨_, _, _, hpure⟩
        · have hlater := ih (s := t)
          rw [hrest] at hlater
          exact (hlater.mono (List.subset_cons_self i rest)).after (declareItem_leadsTo hi).1
        · cases hpure

end Link

/-- Linking a module binds every function as lexical scoping says. If it fails, an item cannot be
declared, or linking fails at a function, which may be for the fault that lexical scoping has. -/
theorem linkModule_boundAs (site : Site) (items : List Item) (r : Registry) :
    match linkModule site items r with
    | .ok m _ => List.Forall₂ (Function.BoundAs (ownGlobal? site.own items)) (functionsOf items)
        (functionsOf m.items)
    | .error d _ => Link.FailsToDeclare site r items d ∨ ∃ f ∈ functionsOf items,
        Link.FailsApart site r (Block.mentions f.body) d ∨
          ∃ fault, f.resolve (ownGlobal? site.own items) = .error fault ∧
            d = site.buffer.locate fault := by
  have hdeclares := Link.declareItems_heeds site items
    (s := ⟨r, Symbols.empty.addImport site.own site.own, .closed⟩)
  unfold linkModule
  cases hrun : Link.linkItems site items ⟨r, .empty, .closed⟩ with
  | ok items' s =>
    obtain ⟨declared, s₁, hdeclared, hbodies⟩ := Link.linkItems_eq_ok hrun
    have hbound := Link.linkBodies_boundAs site
      (Link.showsGlobals_of_declareItems hdeclared) declared
    rw [hdeclared] at hdeclares
    rw [hbodies] at hbound
    exact forall₂_compose (fun _ _ _ => .of_same) hdeclares.2 hbound
  | error d s =>
    rcases exists_of_bind_eq_error hrun with hmodify | ⟨_, s₀, hmodify, hrest⟩
    · cases hmodify
    · cases hmodify
      rcases exists_of_bind_eq_error hrest with hdeclared | ⟨declared, s₁, hdeclared, hbodies⟩
      · have hfails := hdeclares
        rw [hdeclared] at hfails
        exact .inl hfails
      · have hbound := Link.linkBodies_boundAs site
          (Link.showsGlobals_of_declareItems hdeclared) declared
        rw [hdeclared] at hdeclares
        rw [hbodies] at hbound
        obtain ⟨f', hf', hfails⟩ := hbound
        obtain ⟨f, hf, hsame⟩ := exists_mem_of_forall₂ hdeclares.2 hf'
        rw [Function.resolve_congr hsame, hsame.2] at hfails
        exact .inr ⟨f, hf, hfails.imp_left fun h => h.after hdeclares.1⟩

end Compilation

end FrontEnd
