import FrontEnd.Proofs.Runs.Derivation
import FrontEnd.Proofs.Scoping.Opens

/-!
# What a single step of linking does

The steps of linking that matter to other modules, each said once: how a name with a dot
is looked up where the module that it names is known, and what is done where an item is
declared. What linking keeps is derived from these.
-/

namespace FrontEnd.Compilation

open Names (Symbols)

/-- The names of a module as they are seen where the module `own` is linked. -/
def Linking.symbolsAt (own : ModulePath) (s : Linking) (path : ModulePath) : Symbols :=
  if path = own then s.symbols else ((s.registry.module? path).map Module.symbols).getD .empty

namespace Link

variable {site : Site} {s s' s₁ : Linking} {token arity : Nat} {path leading : List String}
  {name : String} {target : ModulePath} {binding : Binding} {refs : List FunctionRef}
  {d : Diagnostic}

theorem symbolsOf_apply (site : Site) (path : ModulePath) :
    symbolsOf site path s = .ok (s.symbolsAt site.own path) s := by
  unfold symbolsOf Linking.symbolsAt
  rw [get_bind_apply]
  split <;> rfl

/-- Leading segments that are no alias yet are imported under themselves. -/
theorem targetModule_eq_ok (h : targetModule site leading token s = .ok target s') :
    (s.symbols.target? ⟨leading⟩ = some target ∧ s' = s) ∨
      (s.symbols.target? ⟨leading⟩ = none ∧ target = ⟨leading⟩ ∧ ∃ registry,
        site.require ⟨leading⟩ (site.buffer.position token) s.registry = .ok () registry ∧
          s' = { s with registry, symbols := s.symbols.addImport ⟨leading⟩ ⟨leading⟩ }) := by
  unfold targetModule at h
  rw [get_bind_apply] at h
  cases hknown : s.symbols.target? ⟨leading⟩ with
  | some known =>
    simp only [hknown] at h
    cases h
    exact .inl ⟨rfl, rfl⟩
  | none =>
    simp only [hknown] at h
    obtain ⟨_, t, himport, hpure⟩ := exists_of_bind_eq_ok h
    cases hpure
    rw [importModule_apply] at himport
    split at himport
    · next registry hrequire =>
      cases himport
      exact .inr ⟨rfl, rfl, registry, hrequire, rfl⟩
    · cases himport

/-- A variable with a dot is a global of the module that its leading segments stand for. One of
another module must be public, and its use is recorded. -/
theorem bindVariable_dotted_apply (hname : path.getLast? = some name)
    (hdotted : ¬path.dropLast.isEmpty = true)
    (htarget : targetModule site path.dropLast token s = .ok target s₁) :
    bindVariable site token path s =
      match (s₁.symbolsAt site.own target).global? name with
      | some g =>
        if target = site.own then .ok (.global g.ref) s₁
        else if g.isPublic then
          .ok (.global g.ref) { s₁ with symbols := s₁.symbols.addExternal g.ref }
        else .error (site.buffer.locate ⟨token, .unresolvedIdentifier (joinDots path)⟩) s₁
      | none => .error (site.buffer.locate ⟨token, .unresolvedIdentifier (joinDots path)⟩) s₁ := by
  unfold bindVariable
  simp only [hname]
  rw [if_neg hdotted, bind_apply_of_eq_ok htarget, bind_apply_of_eq_ok (symbolsOf_apply site target)]
  cases (s₁.symbolsAt site.own target).global? name with
  | none => rfl
  | some g =>
    dsimp only
    split
    · rfl
    · split <;> rfl

/-- A call with a dot is that of a function of the module that its leading segments stand for. One of
another module must be public. -/
theorem bindCall_dotted_apply (hname : path.getLast? = some name)
    (hdotted : ¬path.dropLast.isEmpty = true)
    (htarget : targetModule site path.dropLast token s = .ok target s₁) :
    bindCall site token path arity s =
      let candidates := ((s₁.symbolsAt site.own target).functionsOf name arity).filter fun f =>
        target = site.own || f.isPublic
      if candidates.isEmpty then
        .error (site.buffer.locate ⟨token, .unresolvedIdentifier (joinDots path)⟩) s₁
      else .ok (candidates.map (·.ref)) s₁ := by
  unfold bindCall
  simp only [hname]
  rw [if_neg hdotted, bind_apply_of_eq_ok htarget, bind_apply_of_eq_ok (symbolsOf_apply site target)]
  change (if _ then unresolved site token path else pure _ : Link _) s₁ = _
  split <;> rfl

theorem bindVariable_nil : bindVariable site token [] s =
    .error (site.buffer.locate ⟨token, .unresolvedIdentifier (joinDots [])⟩) s :=
  rfl

theorem exists_targetModule_of_dotted {α : Type} {f : ModulePath → Link α} {a : α}
    (h : (targetModule site leading token >>= f) s = .ok a s') :
    ∃ target s₁, targetModule site leading token s = .ok target s₁ :=
  let ⟨target, s₁, htarget, _⟩ := exists_of_bind_eq_ok h
  ⟨target, s₁, htarget⟩

/-- What a variable is bound to, and what is changed by that. -/
theorem bindVariable_eq_ok (h : bindVariable site token path s = .ok binding s') :
    (∃ name, path = [name] ∧ s' = s ∧ ((∃ slot, binding = .slot slot) ∨
      ∃ g, s.symbols.global? name = some g ∧ binding = .global g.ref)) ∨
    ∃ name target s₁ g, path.getLast? = some name ∧ ¬path.dropLast.isEmpty = true ∧
      targetModule site path.dropLast token s = .ok target s₁ ∧
      (s₁.symbolsAt site.own target).global? name = some g ∧ binding = .global g.ref ∧
      s' = if target = site.own then s₁
        else { s₁ with symbols := s₁.symbols.addExternal g.ref } := by
  cases hname : path.getLast? with
  | none =>
    rw [List.getLast?_eq_none_iff.mp hname, bindVariable_nil] at h
    cases h
  | some name =>
    by_cases hdotted : path.dropLast.isEmpty = true
    · obtain ⟨single, rfl⟩ := List.length_eq_one_iff.mp ((dropLast_isEmpty_iff hname).mp hdotted)
      rw [bindVariable_single_apply] at h
      refine .inl ⟨single, rfl, ?_⟩
      split at h <;> cases h
      · exact ⟨rfl, .inl ⟨_, rfl⟩⟩
      · next g _ hg => exact ⟨rfl, .inr ⟨g, hg, rfl⟩⟩
    · have htarget : ∃ target s₁, targetModule site path.dropLast token s = .ok target s₁ := by
        unfold bindVariable at h
        simp only [hname] at h
        rw [if_neg hdotted] at h
        exact exists_targetModule_of_dotted h
      obtain ⟨target, s₁, htarget⟩ := htarget
      rw [bindVariable_dotted_apply hname hdotted htarget] at h
      split at h
      · next g hg =>
        refine .inr ⟨name, target, s₁, g, rfl, hdotted, htarget, hg, ?_⟩
        split at h
        · next hown =>
          cases h
          exact ⟨rfl, (if_pos hown).symm⟩
        · next hown =>
          split at h <;> cases h
          exact ⟨rfl, (if_neg hown).symm⟩
      · cases h

/-- To bind a call changes at most what finding the module of its name changes. -/
theorem bindCall_eq_ok (h : bindCall site token path arity s = .ok refs s') :
    s' = s ∨ ∃ target, targetModule site path.dropLast token s = .ok target s' := by
  cases hname : path.getLast? with
  | none =>
    rw [List.getLast?_eq_none_iff.mp hname] at h
    cases h
  | some name =>
    by_cases hdotted : path.dropLast.isEmpty = true
    · unfold bindCall at h
      simp only [hname] at h
      rw [if_pos hdotted] at h
      obtain ⟨_, _, hget, hrest⟩ := exists_of_bind_eq_ok h
      cases hget
      obtain ⟨candidates, _, hpure, hlast⟩ := exists_of_bind_eq_ok hrest
      cases hpure
      split at hlast <;> cases hlast
      exact .inl rfl
    · have htarget : ∃ target s₁, targetModule site path.dropLast token s = .ok target s₁ := by
        unfold bindCall at h
        simp only [hname] at h
        rw [if_neg hdotted] at h
        exact exists_targetModule_of_dotted h
      obtain ⟨target, s₁, htarget⟩ := htarget
      rw [bindCall_dotted_apply hname hdotted htarget] at h
      dsimp only at h
      split at h <;> cases h
      exact .inr ⟨target, htarget⟩

/-! ## Failures -/

theorem importModule_eq_error {handle : ModulePath}
    (h : importModule site target handle token s = .error d s') :
    ∃ registry, site.require target (site.buffer.position token) s.registry =
      .error d registry := by
  rw [importModule_apply] at h
  split at h
  · cases h
  · next registry hrequire =>
    cases h
    exact ⟨registry, hrequire⟩

/-- Looking for the module of a name fails only where that is not granted. -/
theorem targetModule_eq_error (h : targetModule site leading token s = .error d s') :
    ∃ registry, site.require ⟨leading⟩ (site.buffer.position token) s.registry =
      .error d registry := by
  unfold targetModule at h
  rw [get_bind_apply] at h
  cases hknown : s.symbols.target? ⟨leading⟩ with
  | some known =>
    simp only [hknown] at h
    cases h
  | none =>
    simp only [hknown] at h
    rcases exists_of_bind_eq_error h with himport | ⟨_, _, _, hpure⟩
    · exact importModule_eq_error himport
    · cases hpure

/-- A variable with a dot that is not bound is reported as it is written, unless its module is not
granted. -/
theorem bindVariable_dotted_eq_error (hlength : path.length ≠ 1)
    (h : bindVariable site token path s = .error d s') :
    d = site.buffer.locate ⟨token, .unresolvedIdentifier (joinDots path)⟩ ∨
      ∃ registry, site.require ⟨path.dropLast⟩ (site.buffer.position token) s.registry =
        .error d registry := by
  cases hname : path.getLast? with
  | none =>
    rw [List.getLast?_eq_none_iff.mp hname, bindVariable_nil] at h
    cases h
    rw [List.getLast?_eq_none_iff.mp hname]
    exact .inl rfl
  | some name =>
    have hdotted : ¬path.dropLast.isEmpty = true := by rwa [dropLast_isEmpty_iff hname]
    cases htarget : targetModule site path.dropLast token s with
    | error d' s₁ =>
      obtain ⟨registry, hrequire⟩ := targetModule_eq_error htarget
      unfold bindVariable at h
      simp only [hname] at h
      rw [if_neg hdotted, bind_apply_of_eq_error htarget] at h
      cases h
      exact .inr ⟨registry, hrequire⟩
    | ok target s₁ =>
      rw [bindVariable_dotted_apply hname hdotted htarget] at h
      refine .inl ?_
      split at h
      · split at h
        · cases h
        · split at h <;> cases h
          rfl
      · cases h
        rfl

/-- So is a call that is not bound. -/
theorem bindCall_eq_error (h : bindCall site token path arity s = .error d s') :
    d = site.buffer.locate ⟨token, .unresolvedIdentifier (joinDots path)⟩ ∨
      path.length ≠ 1 ∧ ∃ registry,
        site.require ⟨path.dropLast⟩ (site.buffer.position token) s.registry =
          .error d registry := by
  cases hname : path.getLast? with
  | none =>
    unfold bindCall at h
    simp only [hname] at h
    cases h
    exact .inl rfl
  | some name =>
    by_cases hdotted : path.dropLast.isEmpty = true
    · unfold bindCall at h
      simp only [hname] at h
      rw [if_pos hdotted] at h
      rcases exists_of_bind_eq_error h with hget | ⟨_, _, hget, hrest⟩
      · cases hget
      · cases hget
        rcases exists_of_bind_eq_error hrest with hpure | ⟨candidates, _, hpure, hlast⟩
        · cases hpure
        · cases hpure
          split at hlast <;> cases hlast
          exact .inl rfl
    · cases htarget : targetModule site path.dropLast token s with
      | error d' s₁ =>
        obtain ⟨registry, hrequire⟩ := targetModule_eq_error htarget
        unfold bindCall at h
        simp only [hname] at h
        rw [if_neg hdotted, bind_apply_of_eq_error htarget] at h
        cases h
        exact .inr ⟨mt (dropLast_isEmpty_iff hname).mpr hdotted, registry, hrequire⟩
      | ok target s₁ =>
        rw [bindCall_dotted_apply hname hdotted htarget] at h
        dsimp only at h
        split at h <;> cases h
        exact .inl rfl

/-! ## Items -/

/-- What is done where an item is declared. -/
inductive DeclaresItem (site : Site) (s : Linking) : Item → Item → Linking → Prop
  | imports (i : Import) {registry : Registry}
    (granted : site.require i.target (site.buffer.position i.token) s.registry = .ok () registry) :
    DeclaresItem site s (.imports i) (.imports i)
      { s with registry, symbols := s.symbols.addImport i.target i.target }
  | submodule (m : Submodule) {registry : Registry}
    (granted : site.require (site.own.child m.name) (site.buffer.position m.token) s.registry =
      .ok () registry) :
    DeclaresItem site s (.submodule m) (.submodule m)
      { s with registry, symbols := s.symbols.addImport (.single m.name) (site.own.child m.name) }
  | global (g : Global) {ref : GlobalRef} {symbols : Symbols}
    (declared : s.symbols.declareGlobal? site.own g.name g.type g.isMutable g.isPublic =
      some (ref, symbols)) :
    DeclaresItem site s (.global g) (.global { g with uniqueName := some ref.uniqueName })
      { s with symbols }
  | function (f : Function) {ref : FunctionRef} {symbols : Symbols}
    (declared : s.symbols.declareFunction? site.own f.name f.arity f.isPublic =
      some (ref, symbols)) :
    DeclaresItem site s (.function f)
      (.function { f with index := ref.index, uniqueName := some ref.uniqueName }) { s with symbols }

theorem declareItem_eq_ok {i i' : Item} (h : declareItem site i s = .ok i' s') :
    DeclaresItem site s i i' s' := by
  cases i with
  | imports i =>
    obtain ⟨_, s₁, himport, hrest⟩ := exists_of_bind_eq_ok h
    obtain ⟨_, s₂, hselected, hpure⟩ := exists_of_bind_eq_ok hrest
    cases hpure
    obtain rfl := checkSelected_eq_ok hselected
    rw [importModule_apply] at himport
    split at himport
    · next hrequire =>
      cases himport
      exact .imports i hrequire
    · cases himport
  | submodule m =>
    obtain ⟨_, s₁, himport, hpure⟩ := exists_of_bind_eq_ok h
    cases hpure
    rw [importModule_apply] at himport
    split at himport
    · next hrequire =>
      cases himport
      exact .submodule m hrequire
    · cases himport
  | global g =>
    obtain ⟨_, s₁, hget, hrest⟩ := exists_of_bind_eq_ok h
    cases hget
    cases hd : s.symbols.declareGlobal? site.own g.name g.type g.isMutable g.isPublic with
    | none =>
      simp only [hd] at hrest
      cases hrest
    | some declared =>
      simp only [hd] at hrest
      cases hrest
      exact .global g hd
  | function f =>
    obtain ⟨_, s₁, hget, hrest⟩ := exists_of_bind_eq_ok h
    cases hget
    cases hd : s.symbols.declareFunction? site.own f.name f.arity f.isPublic with
    | none =>
      simp only [hd] at hrest
      cases hrest
    | some declared =>
      simp only [hd] at hrest
      cases hrest
      exact .function f hd

/-- What is kept where an item is declared is kept where all of them are; it may depend on the items
that have been declared so far. -/
theorem declareItems_induction {I : List Item → Linking → Prop} {items items' : List Item}
    (h : declareItems site items s = .ok items' s') (before : List Item) (hs : I before s)
    (hstep : ∀ {before s i i' s'}, I before s → DeclaresItem site s i i' s' → I (before ++ [i]) s') :
    I (before ++ items) s' := by
  induction items generalizing s items' before with
  | nil =>
    cases h
    rwa [List.append_nil]
  | cons i rest ih =>
    rw [declareItems] at h
    obtain ⟨i', s₁, hi, htail⟩ := exists_of_bind_eq_ok h
    obtain ⟨rest', s₂, hrest, hpure⟩ := exists_of_bind_eq_ok htail
    cases hpure
    have hlast := ih hrest _ (hstep hs (declareItem_eq_ok hi))
    rwa [List.append_assoc, List.singleton_append] at hlast

/-- A module is linked in two turns: its items are declared, and then its bodies are linked. -/
theorem linkItems_eq_ok {items items' : List Item} {r : Registry}
    (h : linkItems site items ⟨r, .empty, .closed⟩ = .ok items' s') :
    ∃ declared s₁, declareItems site items
        ⟨r, Symbols.empty.addImport site.own site.own, .closed⟩ = .ok declared s₁ ∧
      linkBodies site declared s₁ = .ok items' s' := by
  obtain ⟨_, s₀, hmodify, hrest⟩ := exists_of_bind_eq_ok h
  cases hmodify
  obtain ⟨declared, s₁, hdeclare, hbodies⟩ := exists_of_bind_eq_ok hrest
  exact ⟨declared, s₁, hdeclare, hbodies⟩

end Link

end FrontEnd.Compilation
