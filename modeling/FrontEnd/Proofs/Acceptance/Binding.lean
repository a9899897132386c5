import FrontEnd.Proofs.Acceptance.Declarations
import FrontEnd.Proofs.Acceptance.Scoping
import FrontEnd.Proofs.Runs.Order

/-!
# Linking succeeds just if all names are bound

Whether the names of a body are bound where it is linked is a matter of the body, of what
the modules declare, and of what the leading segments of dotted names stand for. None of
these changes on the way: a module that is compiled for a name that asks for it gets the
alias that the name stands for anyhow. So if all that is asked for is granted, linking
succeeds just if the names are bound, wherever the body stands among the others.
-/

namespace FrontEnd

/-- What the names in a module depend on. -/
structure Environment where
  /-- The module whose names are bound. -/
  own : ModulePath
  /-- What every module declares. -/
  declared : ModulePath → List Declaration
  /-- The module that the leading segments of a dotted name stand for. -/
  target : List String → ModulePath
  /-- The dotted names of the module. -/
  mentioned : List DottedName
  /-- The modules that it may ask for. -/
  wanted : ModulePath → Prop

namespace Environment

/-- The module in which a name is looked up. -/
def moduleOf (E : Environment) (path : List String) : ModulePath :=
  if path.dropLast.isEmpty then E.own else E.target path.dropLast

/-- A path that is not that of a local is the name of a global or function of the module in which it
is looked up. If that is another one, the global or function must be public. -/
def means (E : Environment) : Meaning := fun path arity => ∃ name isPublic,
  path.getLast? = some name ∧ ⟨(name, arity), isPublic⟩ ∈ E.declared (E.moduleOf path) ∧
    (E.moduleOf path = E.own ∨ isPublic = true)

theorem means_single (E : Environment) (name : String) (arity : Option Nat) :
    E.means [name] arity ↔ ∃ isPublic, ⟨(name, arity), isPublic⟩ ∈ E.declared E.own ∧ True := by
  simp [means, moduleOf]

theorem means_dotted (E : Environment) {path : List String} {name : String}
    (hname : path.getLast? = some name) (hdotted : ¬path.dropLast.isEmpty = true)
    (arity : Option Nat) :
    E.means path arity ↔ ∃ isPublic,
      ⟨(name, arity), isPublic⟩ ∈ E.declared (E.target path.dropLast) ∧
        (E.target path.dropLast = E.own ∨ isPublic = true) := by
  simp [means, moduleOf, hname, hdotted]

end Environment

/-- The names of the open scopes. -/
def Names.Scopes.names (s : Scopes) : OpenNames := s.scopes.map (List.map Prod.fst)

theorem Names.Scopes.names_ascend (s : Scopes) : s.ascend.names = s.names.drop 1 := by
  rw [names, names, ascend, List.map_drop]

theorem Names.Scopes.find?_isSome_iff (s : Scopes) (name : String) :
    (s.find? name).isSome ↔ s.names.Finds [name] := by
  rw [find?, List.findSome?_isSome_iff]
  simp only [OpenNames.Finds, names, List.mem_map]
  constructor
  · rintro ⟨scope, hscope, h⟩
    obtain ⟨entry, hentry, heq⟩ := List.lookup_isSome_iff.mp h
    exact ⟨_, ⟨scope, hscope, rfl⟩, List.mem_map.mpr ⟨entry, hentry, (eq_of_beq heq).symm⟩⟩
  · rintro ⟨_, ⟨scope, hscope, rfl⟩, hname⟩
    obtain ⟨entry, hentry, rfl⟩ := List.mem_map.mp hname
    exact ⟨scope, hscope, List.lookup_isSome_iff.mpr ⟨entry, hentry, BEq.rfl⟩⟩

/-- A name is declared just if the innermost scope admits it. -/
theorem Names.Scopes.declare?_eq_none {s : Scopes} {name : String} {type : Option ValueType}
    {isParam : Bool} (h : s.declare? name type isParam = none) : ¬s.names.Admits name := by
  obtain ⟨-, hfull⟩ | ⟨_, _, -, -, hdeclared⟩ := s.declare?_cases name type isParam
  · unfold names
    cases hscopes : s.scopes with
    | nil => exact id
    | cons scope outer =>
      obtain ⟨entry, hentry, heq⟩ := List.lookup_isSome_iff.mp (hfull scope outer hscopes)
      exact not_not_intro (List.mem_map.mpr ⟨entry, hentry, (eq_of_beq heq).symm⟩)
  · cases hdeclared.symm.trans h

theorem Names.Scopes.declare?_eq_some {s s' : Scopes} {name : String} {type : Option ValueType}
    {isParam : Bool} {slot : Nat} (h : s.declare? name type isParam = some (slot, s')) :
    s.names.Admits name ∧ s'.names = s.names.declare name := by
  obtain ⟨hnone, -⟩ | ⟨scope, outer, hscopes, hfree, hdeclared⟩ :=
    s.declare?_cases name type isParam
  · cases hnone.symm.trans h
  · cases hdeclared.symm.trans h
    unfold names
    rw [hscopes]
    refine ⟨fun hname => ?_, rfl⟩
    obtain ⟨entry, hentry, rfl⟩ := List.mem_map.mp hname
    simpa using List.lookup_eq_none_iff.mp hfree entry hentry

theorem OpenNames.drop_declare (name : String) (scopes : OpenNames) :
    (scopes.declare name).drop 1 = scopes.drop 1 := by
  cases scopes <;> rfl

theorem Statement.drop_opens (scopes : OpenNames) (s : Statement) :
    (s.opens scopes).drop 1 = scopes.drop 1 := by
  cases s with
  | declare _ name => exact scopes.drop_declare name
  | _ => rfl

namespace Compilation

open Names (Symbols)
open Text (Position)

/-- The finished modules declare what they should. -/
def Registry.Shows (r : Registry) (declared : ModulePath → List Declaration) : Prop :=
  ∀ path m, r.module? path = some m → m.symbols.Shows (declared path)

variable {E : Environment} {I : Registry → Prop} {site : Site} {s s' : Linking}
  {scopes : OpenNames}

/-- A module that is asked for is finished then, and those that were finished before still are. `I`
holds of the files all the time, and implies that what has been finished declares what it should. -/
structure Site.Serves (site : Site) (E : Environment) (I : Registry → Prop) : Prop where
  own_eq : site.own = E.own
  stays : ∀ {target position r r'}, I r → site.require target position r = .ok () r' → I r'
  finished : ∀ {target position r r'}, I r → site.require target position r = .ok () r' →
    r'.HasFinished target
  kept : ∀ {target position r r' m}, I r → site.require target position r = .ok () r' →
    r.HasFinished m → r'.HasFinished m
  shows : ∀ {r}, I r → r.Shows E.declared

/-- All modules that may be asked for are granted. -/
def Site.Grants (site : Site) (E : Environment) (I : Registry → Prop) : Prop :=
  ∀ target position r, E.wanted target → I r → ∃ r', site.require target position r = .ok () r'

/-- What is known while the bodies of a module are linked. Whatever aliases there are yet, leading
segments stand for the same module. -/
structure Linking.Sees (E : Environment) (I : Registry → Prop) (s : Linking) : Prop where
  registry : I s.registry
  own : s.symbols.Shows (E.declared E.own)
  target : ∀ leading, (s.symbols.target? ⟨leading⟩).getD ⟨leading⟩ = E.target leading
  finished : ∀ handle target, s.symbols.target? handle = some target →
    target = E.own ∨ s.registry.HasFinished target
  wanted : ∀ d ∈ E.mentioned, s.symbols.target? ⟨d.path.dropLast⟩ = none →
    E.wanted ⟨d.path.dropLast⟩

/-- The bodies of a module are linked, and some scopes are open. -/
structure Linking.At (E : Environment) (I : Registry → Prop) (scopes : OpenNames) (s : Linking) :
    Prop where
  sees : s.Sees E I
  names : s.scopes.names = scopes

/-- A further alias says what the leading segments stand for anyhow. -/
theorem Linking.Sees.addImport (hs : s.Sees E I) {leading : List String}
    (hnone : s.symbols.target? ⟨leading⟩ = none) {registry : Registry} (hI : I registry)
    (hfinished : registry.HasFinished ⟨leading⟩)
    (hkept : ∀ m, s.registry.HasFinished m → registry.HasFinished m) :
    Linking.Sees E I { s with registry, symbols := s.symbols.addImport ⟨leading⟩ ⟨leading⟩ } := by
  have htarget := Symbols.target?_addImport s.symbols ⟨leading⟩ ⟨leading⟩
  refine ⟨hI, hs.own.addImport _ _, fun other => ?_, fun handle target h => ?_,
    fun d hd h => ?_⟩
  · dsimp only
    rw [htarget, ← hs.target]
    split
    · next heq =>
      cases heq
      rw [hnone]
      rfl
    · rfl
  · dsimp only at h
    rw [htarget] at h
    split at h
    · cases h
      exact .inr hfinished
    · exact (hs.finished handle target h).imp_right (hkept target)
  · dsimp only at h
    rw [htarget] at h
    split at h
    · cases h
    · exact hs.wanted d hd h

theorem Linking.Sees.withScopes (hs : s.Sees E I) (scopes : Names.Scopes) :
    Linking.Sees E I { s with scopes } :=
  ⟨hs.registry, hs.own, hs.target, hs.finished, hs.wanted⟩

theorem Linking.Sees.addExternal (hs : s.Sees E I) (ref : GlobalRef) :
    Linking.Sees E I { s with symbols := s.symbols.addExternal ref } := by
  have htarget : (s.symbols.addExternal ref).target? = s.symbols.target? := by
    unfold Symbols.addExternal
    split <;> rfl
  refine ⟨hs.registry, hs.own.addExternal ref, ?_, ?_, ?_⟩ <;> dsimp only <;> rw [htarget]
  · exact hs.target
  · exact hs.finished
  · exact hs.wanted

namespace Link

/-- If all is granted as `G` says, the computation succeeds just if `C` holds, and `Q` holds of what
it leads to. -/
structure Decides {α : Type} (G C : Prop) (Q : α → Linking → Prop) (x : Link α) (s : Linking) :
    Prop where
  sound : ∀ {a s'}, x s = .ok a s' → C ∧ Q a s'
  complete : G → C → ∃ a s', x s = .ok a s'

namespace Decides

variable {α β : Type} {G C C' : Prop} {P P' : α → Linking → Prop} {Q : β → Linking → Prop}

theorem pure_of {a : α} (hC : C) (h : P a s) : Decides G C P (Pure.pure a : Link α) s := by
  refine ⟨?_, fun _ _ => ⟨a, s, rfl⟩⟩
  rintro _ _ ⟨⟩
  exact ⟨hC, h⟩

theorem pure {a : α} (h : P a s) : Decides G True P (Pure.pure a : Link α) s := pure_of trivial h

theorem unresolved {token : Nat} {path : List String} (h : ¬C) :
    Decides G C P (Link.unresolved site token path : Link α) s :=
  ⟨nofun, fun _ hC => absurd hC h⟩

theorem fail {token : Nat} {cause : Cause} (h : ¬C) :
    Decides G C P (Link.fail site token cause : Link α) s :=
  ⟨nofun, fun _ hC => absurd hC h⟩

theorem modify {Q : Unit → Linking → Prop} {change : Linking → Linking} (h : Q () (change s)) :
    Decides G True Q (modify change : Link Unit) s := by
  refine ⟨?_, fun _ _ => ⟨(), change s, rfl⟩⟩
  rintro _ _ ⟨⟩
  exact ⟨trivial, h⟩

theorem get_bind {f : Linking → Link β} (h : Decides G C Q (f s) s) :
    Decides G C Q (get >>= f) s := ⟨h.sound, h.complete⟩

theorem congr {x : Link α} (h : Decides G C P x s) (hC : C ↔ C') : Decides G C' P x s :=
  ⟨fun hok => (h.sound hok).imp_left hC.mp, fun hG hC' => h.complete hG (hC.mpr hC')⟩

theorem weaken {x : Link α} (h : Decides G C P x s) (hP : ∀ a s', P a s' → P' a s') :
    Decides G C P' x s :=
  ⟨fun hok => (h.sound hok).imp_right (hP _ _), h.complete⟩

theorem bind {x : Link α} {f : α → Link β} (h : Decides G C P x s)
    (hf : ∀ a s', P a s' → Decides G C' Q (f a) s') : Decides G (C ∧ C') Q (x >>= f) s := by
  constructor
  · intro b s' hok
    obtain ⟨a, t, hx, hfa⟩ := exists_of_bind_eq_ok hok
    obtain ⟨hC, hP⟩ := h.sound hx
    obtain ⟨hC', hQ⟩ := (hf a t hP).sound hfa
    exact ⟨⟨hC, hC'⟩, hQ⟩
  · rintro hG ⟨hC, hC'⟩
    obtain ⟨a, t, hx⟩ := h.complete hG hC
    obtain ⟨b, s', hfa⟩ := (hf a t (h.sound hx).2).complete hG hC'
    exact ⟨b, s', (bind_apply_of_eq_ok hx).trans hfa⟩

/-- The first computation always succeeds. -/
theorem before {x : Link α} {f : α → Link β} (h : Decides G True P x s)
    (hf : ∀ a s', P a s' → Decides G C Q (f a) s') : Decides G C Q (x >>= f) s :=
  (h.bind hf).congr (iff_of_eq (true_and C))

/-- The second computation always succeeds. -/
theorem after {x : Link α} {f : α → Link β} (h : Decides G C P x s)
    (hf : ∀ a s', P a s' → Decides G True Q (f a) s') : Decides G C Q (x >>= f) s :=
  (h.bind hf).congr (iff_of_eq (and_true C))

end Decides

/-! ## Names -/

/-- A module that may be asked for is imported. -/
theorem decides_importModule (hsite : site.Serves E I) (hI : I s.registry) {target : ModulePath}
    (hwanted : E.wanted target) (handle : ModulePath) (token : Nat) :
    Decides (site.Grants E I) True
      (fun _ s' => ∃ registry, s' =
          { s with registry, symbols := s.symbols.addImport handle target } ∧
        I registry ∧ registry.HasFinished target ∧
        ∀ m, s.registry.HasFinished m → registry.HasFinished m)
      (importModule site target handle token) s := by
  constructor
  · intro a s' hok
    rw [importModule_apply] at hok
    split at hok
    · next registry hrequire =>
      cases hok
      exact ⟨trivial, registry, rfl, hsite.stays hI hrequire, hsite.finished hI hrequire,
        fun _ => hsite.kept hI hrequire⟩
    · cases hok
  · intro hG _
    obtain ⟨registry, hrequire⟩ := hG target (site.buffer.position token) s.registry hwanted hI
    rw [importModule_apply, hrequire]
    exact ⟨(), _, rfl⟩

theorem decides_targetModule (hsite : site.Serves E I) (hs : s.Sees E I) {d : DottedName}
    (hd : d ∈ E.mentioned) (token : Nat) :
    Decides (site.Grants E I) True
      (fun target s' => target = E.target d.path.dropLast ∧ s'.Sees E I ∧ s'.scopes = s.scopes ∧
        (target = E.own ∨ s'.registry.HasFinished target))
      (targetModule site d.path.dropLast token) s := by
  refine Decides.get_bind ?_
  have htarget := hs.target d.path.dropLast
  cases hknown : s.symbols.target? ⟨d.path.dropLast⟩ with
  | some target =>
    rw [hknown] at htarget
    exact .pure ⟨htarget, hs, rfl, hs.finished _ _ hknown⟩
  | none =>
    rw [hknown] at htarget
    refine (decides_importModule hsite hs.registry (hs.wanted d hd hknown) _ _).before ?_
    rintro _ _ ⟨registry, rfl, hI, hfinished, hkept⟩
    exact .pure ⟨htarget, hs.addImport hknown hI hfinished hkept, rfl, .inr hfinished⟩

theorem decides_symbolsOf {G : Prop} (hsite : site.Serves E I) (hs : s.Sees E I)
    {target : ModulePath} (htarget : target = E.own ∨ s.registry.HasFinished target) :
    Decides G True (fun symbols s' => s' = s ∧ symbols.Shows (E.declared target))
      (symbolsOf site target) s := by
  refine Decides.get_bind ?_
  rw [hsite.own_eq]
  split
  · next hown =>
    subst hown
    exact .pure ⟨rfl, hs.own⟩
  · next hother =>
    obtain ⟨m, hm⟩ := htarget.resolve_left hother
    rw [hm]
    exact .pure ⟨rfl, hsite.shows hs.registry target m hm⟩

theorem mem_dottedName_of_not_isEmpty {token : Nat} {path : List String}
    (hdotted : ¬path.dropLast.isEmpty = true) : ⟨token, path⟩ ∈ dottedName token path := by
  rw [dottedName_of_not_isEmpty hdotted]
  exact List.mem_singleton_self _

/-- What follows where the module of a dotted name has been found, and what is declared there. -/
theorem decides_lookup {α : Type} {C : Prop} {Q : α → Linking → Prop} (hsite : site.Serves E I)
    (hs : s.At E I scopes) {token : Nat} {path : List String}
    (hd : dottedName token path ⊆ E.mentioned) (hdotted : ¬path.dropLast.isEmpty = true)
    {f : ModulePath → Names.Symbols → Link α}
    (hf : ∀ symbols s', symbols.Shows (E.declared (E.target path.dropLast)) → s'.At E I scopes →
      Decides (site.Grants E I) C Q (f (E.target path.dropLast) symbols) s') :
    Decides (site.Grants E I) C Q (do
      let target ← targetModule site path.dropLast token
      let symbols ← symbolsOf site target
      f target symbols) s := by
  refine (decides_targetModule hsite hs.sees (hd (mem_dottedName_of_not_isEmpty hdotted))
    token).before ?_
  rintro target s₁ ⟨rfl, hs₁, hscopes, hfinished⟩
  refine (decides_symbolsOf hsite hs₁ hfinished).before ?_
  rintro symbols s₂ ⟨rfl, hshows⟩
  exact hf symbols _ hshows ⟨hs₁, by rw [hscopes, hs.names]⟩

theorem decides_bindVariable (hsite : site.Serves E I) (hs : s.At E I scopes) {token : Nat}
    {path : List String} (hd : dottedName token path ⊆ E.mentioned) :
    Decides (site.Grants E I) (scopes.Finds path ∨ E.means path none)
      (fun _ s' => s'.At E I scopes) (bindVariable site token path) s := by
  obtain ⟨hs, rfl⟩ := hs
  unfold bindVariable
  cases hname : path.getLast? with
  | none =>
    obtain rfl := List.getLast?_eq_none_iff.mp hname
    refine .unresolved ?_
    rintro (h | ⟨_, _, h, -⟩)
    · exact h
    · cases h
  | some name =>
    dsimp only
    split
    · next hsingle =>
      obtain ⟨leading, rfl⟩ := List.getLast?_eq_some_iff.mp hname
      obtain rfl : leading = [] := by simpa using hsingle
      have hfind := s.scopes.find?_isSome_iff name
      have hglobal := hs.own.global?_iff name fun _ => True
      refine Decides.get_bind ?_
      rw [List.nil_append, E.means_single, ← hglobal, ← hfind]
      cases hslot : s.scopes.find? name with
      | some slot => exact .pure_of (by simp) ⟨hs, rfl⟩
      | none =>
        cases hg : s.symbols.global? name with
        | some g => exact .pure_of (by simp) ⟨hs, rfl⟩
        | none => exact .unresolved (by simp)
    · next hdotted =>
      have hlocal : ¬s.scopes.names.Finds path := by
        intro h
        match path with
        | [] | _ :: _ :: _ => exact h
        | [_] => exact hdotted rfl
      rw [or_iff_right hlocal, E.means_dotted hname hdotted]
      refine decides_lookup hsite ⟨hs, rfl⟩ hd hdotted fun symbols s₂ hshows hat => ?_
      rw [← hshows.global?_iff name fun isPublic => E.target path.dropLast = E.own ∨
        isPublic = true, hsite.own_eq]
      cases hg : symbols.global? name with
      | none => exact .unresolved (by simp)
      | some g =>
        dsimp only
        split
        · next hown => exact .pure_of (by simp [hown]) hat
        · next hother =>
          split
          · next hpublic =>
            have hlinked : Decides (site.Grants E I) True (fun _ s' => s'.At E I s.scopes.names)
                (do
                  modifySymbols (·.addExternal g.ref)
                  return Binding.global g.ref) s₂ :=
              (Decides.modify (Q := fun _ s' => s'.At E I s.scopes.names)
                ⟨hat.sees.addExternal g.ref, hat.names⟩).before fun _ _ hs₃ => .pure hs₃
            exact hlinked.congr (by simp [hpublic])
          · next hprivate => exact .unresolved (by simp [hother, hprivate])

theorem decides_bindCall (hsite : site.Serves E I) (hs : s.At E I scopes) {token : Nat}
    {path : List String} (hd : dottedName token path ⊆ E.mentioned) (arity : Nat) :
    Decides (site.Grants E I) (E.means path (some arity)) (fun _ s' => s'.At E I scopes)
      (bindCall site token path arity) s := by
  unfold bindCall
  cases hname : path.getLast? with
  | none =>
    refine .unresolved ?_
    rintro ⟨_, _, h, -⟩
    rw [hname] at h
    cases h
  | some name =>
    have hchoose : ∀ {symbols : List Names.FunctionSymbol} {s' : Linking} {C : Prop},
        s'.At E I scopes → ((∃ f, f ∈ symbols) ↔ C) → Decides (site.Grants E I) C
          (fun _ s' => s'.At E I scopes) (if symbols.isEmpty then unresolved site token path
            else pure (symbols.map (·.ref))) s' := by
      intro symbols s' C hs' hC
      rw [← hC]
      cases symbols with
      | nil => exact .unresolved (by simp)
      | cons f rest => exact .pure_of ⟨f, List.mem_cons_self⟩ hs'
    dsimp only
    split
    · next hsingle =>
      obtain ⟨leading, rfl⟩ := List.getLast?_eq_some_iff.mp hname
      obtain rfl : leading = [] := by simpa using hsingle
      refine Decides.get_bind ((Decides.pure (P := fun symbols s' =>
        symbols = s.symbols.functionsOf name arity ∧ s' = s) ⟨rfl, rfl⟩).before ?_)
      rintro _ _ ⟨rfl, rfl⟩
      refine hchoose hs ?_
      have hshows := hs.sees.own.functionsOf_iff name arity fun _ => True
      rw [List.nil_append, E.means_single, ← hshows]
      simp
    · next hdotted =>
      refine decides_lookup hsite hs hd hdotted fun symbols s₂ hshows hat => ?_
      refine (Decides.pure (P := fun chosen s' => chosen = (symbols.functionsOf name arity).filter
        (fun f => E.target path.dropLast = site.own || f.isPublic) ∧ s' = s₂)
          ⟨rfl, rfl⟩).before ?_
      rintro _ _ ⟨rfl, rfl⟩
      refine hchoose hat ?_
      have hvisible := hshows.functionsOf_iff name arity fun isPublic =>
        E.target path.dropLast = E.own ∨ isPublic = true
      rw [E.means_dotted hname hdotted, ← hvisible, hsite.own_eq]
      simp [List.mem_filter]

theorem decides_declareLocal {G : Prop} (hs : s.At E I scopes) (token : Nat) (name : String)
    (type : Option ValueType) (isParam : Bool) :
    Decides G (scopes.Admits name) (fun _ s' => s'.At E I (scopes.declare name))
      (declareLocal site token name type isParam) s := by
  obtain ⟨hs, rfl⟩ := hs
  refine Decides.get_bind ?_
  cases hdeclared : s.scopes.declare? name type isParam with
  | none => exact .fail (Names.Scopes.declare?_eq_none hdeclared)
  | some declared =>
    obtain ⟨slot, opened⟩ := declared
    obtain ⟨hadmits, hnames⟩ := Names.Scopes.declare?_eq_some hdeclared
    have hat : Linking.At E I (s.scopes.names.declare name) { s with scopes := opened } :=
      ⟨hs.withScopes opened, hnames⟩
    refine Decides.congr (C := True) ?_ (iff_of_true trivial hadmits)
    exact (Decides.modify (Q := fun _ s' => s'.At E I (s.scopes.names.declare name)) hat).before
      fun _ _ hs' => .pure hs'

/-- What is declared in a scope of its own is forgotten. -/
theorem decides_inScope {α : Type} {G C : Prop} {x : Link α} (hs : s.At E I scopes)
    (hx : ∀ s, s.At E I ([] :: scopes) → Decides G C
      (fun _ s' => s'.Sees E I ∧ s'.scopes.names.drop 1 = scopes) x s) :
    Decides G C (fun _ s' => s'.At E I scopes) (inScope x) s := by
  have hopened : Linking.At E I ([] :: scopes) { s with scopes := s.scopes.descend } :=
    ⟨hs.sees.withScopes _, congrArg ([] :: ·) hs.names⟩
  refine (Decides.modify (Q := fun _ s' => s'.At E I ([] :: scopes)) hopened).before
    fun _ s₁ hs₁ => (hx s₁ hs₁).after fun a s₂ hs₂ => ?_
  obtain ⟨hsees, hnames⟩ := hs₂
  refine (Decides.modify (Q := fun _ s' => s'.At E I scopes) ⟨hsees.withScopes _, ?_⟩).before
    fun _ _ hs₃ => .pure hs₃
  rw [Names.Scopes.names_ascend, hnames]

/-! ## Bodies -/

mutual

theorem decides_linkNode (hsite : site.Serves E I) : (n : Node) → n.dottedNames ⊆ E.mentioned →
    (scopes : OpenNames) → (s : Linking) → s.At E I scopes →
      Decides (site.Grants E I) (n.Binds E.means scopes) (fun _ s' => s'.At E I scopes)
        (linkNode site n) s
  | .var token path _, hd, scopes, s, hs => by
    rw [Node.dottedNames] at hd
    rw [linkNode, Node.Binds]
    exact (decides_bindVariable hsite hs hd).after fun _ _ hs' => .pure hs'
  | .call token path arity _, hd, scopes, s, hs => by
    rw [Node.dottedNames] at hd
    rw [linkNode, Node.Binds]
    exact (decides_bindCall hsite hs hd arity).after fun _ _ hs' => .pure hs'
  | .cond c, hd, scopes, s, hs => by
    rw [Node.dottedNames] at hd
    rw [linkNode, Node.Binds]
    exact (decides_linkConditional hsite c hd scopes s hs).after fun _ _ hs' => .pure hs'
  | .int .., _, scopes, s, hs | .float .., _, scopes, s, hs | .bool .., _, scopes, s, hs
  | .op .., _, scopes, s, hs => by
    rw [Node.Binds]
    exact .pure hs

theorem decides_linkExpr (hsite : site.Serves E I) : (e : List Node) →
    Expr.dottedNames e ⊆ E.mentioned → (scopes : OpenNames) → (s : Linking) → s.At E I scopes →
      Decides (site.Grants E I) (Expr.Binds E.means scopes e) (fun _ s' => s'.At E I scopes)
        (linkExpr site e) s
  | [], _, scopes, s, hs => by
    rw [linkExpr, Expr.Binds]
    exact .pure hs
  | n :: rest, hd, scopes, s, hs => by
    rw [Expr.dottedNames_cons, List.append_subset] at hd
    rw [linkExpr, Expr.Binds]
    exact (decides_linkNode hsite n hd.1 scopes s hs).bind fun _ s₁ hs₁ =>
      (decides_linkExpr hsite rest hd.2 scopes s₁ hs₁).after fun _ _ hs₂ => .pure hs₂

theorem decides_linkConditional (hsite : site.Serves E I) : (c : Conditional) →
    c.dottedNames ⊆ E.mentioned → (scopes : OpenNames) → (s : Linking) → s.At E I scopes →
      Decides (site.Grants E I) (c.Binds E.means scopes) (fun _ s' => s'.At E I scopes)
        (linkConditional site c) s
  | .mk token condition onTrue onFalse _ _, hd, scopes, s, hs => by
    rw [Conditional.dottedNames, List.append_subset, List.append_subset] at hd
    rw [linkConditional, Conditional.Binds]
    exact (decides_linkExpr hsite condition hd.1.1 scopes s hs).bind fun _ s₁ hs₁ =>
      (decides_inScope hs₁ (decides_linkBlock hsite onTrue hd.1.2 ([] :: scopes))).bind
        fun _ s₂ hs₂ =>
      (decides_inScope hs₂ (decides_linkBlock hsite onFalse hd.2 ([] :: scopes))).after
        fun _ _ hs₃ => .pure hs₃

theorem decides_linkStatement (hsite : site.Serves E I) : (st : Statement) →
    st.dottedNames ⊆ E.mentioned → (scopes : OpenNames) → (s : Linking) → s.At E I scopes →
      Decides (site.Grants E I) (st.Binds E.means scopes) (fun _ s' => s'.At E I (st.opens scopes))
        (linkStatement site st) s
  | .declare token name type value _, hd, scopes, s, hs => by
    rw [Statement.dottedNames] at hd
    rw [linkStatement, Statement.Binds]
    exact (decides_linkExpr hsite value hd scopes s hs).bind fun _ s₁ hs₁ =>
      (decides_declareLocal hs₁ token name type false).after fun _ _ hs₂ => .pure hs₂
  | .assign token target value, hd, scopes, s, hs => by
    rw [Statement.dottedNames, List.append_subset] at hd
    rw [linkStatement, Statement.Binds]
    exact (decides_linkExpr hsite value hd.1 scopes s hs).bind fun _ s₁ hs₁ =>
      (decides_bindVariable hsite hs₁ hd.2).after fun _ _ hs₂ => .pure hs₂
  | .eval token value, hd, scopes, s, hs | .ret token value, hd, scopes, s, hs => by
    rw [Statement.dottedNames] at hd
    rw [linkStatement, Statement.Binds]
    exact (decides_linkExpr hsite value hd scopes s hs).after fun _ _ hs₁ => .pure hs₁
  | .cond c, hd, scopes, s, hs => by
    rw [Statement.dottedNames] at hd
    rw [linkStatement, Statement.Binds]
    exact (decides_linkConditional hsite c hd scopes s hs).after fun _ _ hs₁ => .pure hs₁
  | .loop token condition body, hd, scopes, s, hs => by
    rw [Statement.dottedNames, List.append_subset] at hd
    rw [linkStatement, Statement.Binds]
    exact (decides_linkExpr hsite condition hd.1 scopes s hs).bind fun _ s₁ hs₁ =>
      (decides_inScope hs₁ (decides_linkBlock hsite body hd.2 ([] :: scopes))).after
        fun _ _ hs₂ => .pure hs₂
  | .exit .., _, scopes, s, hs | .next .., _, scopes, s, hs => by
    rw [Statement.Binds]
    exact .pure hs

/-- A block is linked just if its names are bound. It leaves the scopes open that were open around
it. -/
theorem decides_linkBlock (hsite : site.Serves E I) : (b : List Statement) →
    Block.dottedNames b ⊆ E.mentioned → (scopes : OpenNames) → (s : Linking) → s.At E I scopes →
      Decides (site.Grants E I) (Block.Binds E.means scopes b)
        (fun _ s' => s'.Sees E I ∧ s'.scopes.names.drop 1 = scopes.drop 1) (linkBlock site b) s
  | [], _, scopes, s, hs => by
    rw [linkBlock, Block.Binds]
    exact .pure ⟨hs.sees, by rw [hs.names]⟩
  | st :: rest, hd, scopes, s, hs => by
    rw [Block.dottedNames_cons, List.append_subset] at hd
    rw [linkBlock, Block.Binds, ← st.drop_opens scopes]
    exact (decides_linkStatement hsite st hd.1 scopes s hs).bind fun _ s₁ hs₁ =>
      (decides_linkBlock hsite rest hd.2 (st.opens scopes) s₁ hs₁).after fun _ _ hs₂ => .pure hs₂

end

/-- Parameters are declared if they have different names, none of which is in the scope yet. -/
theorem decides_declareParams {G : Prop} (params : List Param) {scope : List String}
    (hs : s.At E I [scope]) :
    Decides G ((params.map Param.name).Nodup ∧ ∀ p ∈ params, p.name ∉ scope)
      (fun _ s' => s'.At E I [(params.map Param.name).reverse ++ scope])
      (declareParams site params) s := by
  induction params generalizing s scope with
  | nil => exact .pure_of ⟨.nil, List.forall_mem_nil _⟩ hs
  | cons p rest ih =>
    rw [declareParams]
    have hdeclare : Decides G (p.name ∉ scope) (fun _ s' => s'.At E I [p.name :: scope])
        (discard <| declareLocal site p.token p.name (some p.type) true) s :=
      (decides_declareLocal hs p.token p.name (some p.type) true).after fun _ _ hs' => .pure hs'
    refine ((hdeclare.bind fun _ s₁ hs₁ => ih hs₁).weaken fun _ s' hs' => ?_).congr ?_
    · rwa [List.map_cons, List.reverse_cons, List.append_assoc, List.singleton_append]
    · simp only [List.map_cons, List.nodup_cons, List.mem_cons, not_or,
        List.mem_map, not_exists, not_and]
      grind

/-- A function is linked just if its names are bound. -/
theorem decides_linkFunction (hsite : site.Serves E I) (hs : s.Sees E I) {f : Function}
    (hd : Block.dottedNames f.body ⊆ E.mentioned) :
    Decides (site.Grants E I) (f.Binds E.means) (fun _ s' => s'.Sees E I) (linkFunction site f) s := by
  have hstart : Linking.At E I [[]] { s with scopes := s.scopes.start } :=
    ⟨hs.withScopes _, rfl⟩
  have hlinks : Decides (site.Grants E I)
      (((f.params.map Param.name).Nodup ∧ ∀ p ∈ f.params, p.name ∉ []) ∧
        Block.Binds E.means [(f.params.map Param.name).reverse] f.body)
      (fun _ s' => s'.Sees E I) (linkFunction site f) s := by
    refine (Decides.modify (Q := fun _ s' => s'.At E I [[]]) hstart).before fun _ s₁ hs₁ =>
      (decides_declareParams f.params hs₁).bind fun _ s₂ hs₂ => ?_
    rw [List.append_nil] at hs₂
    refine (decides_linkBlock hsite f.body hd _ s₂ hs₂).after fun _ s₃ hs₃ =>
      Decides.get_bind ?_
    exact (Decides.modify (Q := fun _ s' => s'.Sees E I) (hs₃.1.withScopes _)).before
      fun _ _ hs₄ => .pure hs₄
  refine hlinks.congr ⟨fun h => ⟨h.1.1, h.2⟩, fun h => ⟨⟨h.params, fun _ _ => ?_⟩, h.body⟩⟩
  exact List.not_mem_nil

/-- Bodies are linked just if the names in all of them are bound, whatever their order. -/
theorem decides_linkBodies (hsite : site.Serves E I) {items : List Item} (hs : s.Sees E I)
    (hd : ∀ f ∈ functionsOf items, Block.dottedNames f.body ⊆ E.mentioned) :
    Decides (site.Grants E I) (∀ f ∈ functionsOf items, f.Binds E.means)
      (fun _ s' => s'.Sees E I) (linkBodies site items) s := by
  induction items generalizing s with
  | nil => exact .pure_of (List.forall_mem_nil _) hs
  | cons i rest ih =>
    cases i with
    | function f =>
      rw [linkBodies]
      have hcons : functionsOf (.function f :: rest) = f :: functionsOf rest := rfl
      rw [hcons, List.forall_mem_cons] at hd ⊢
      have hbody : Decides (site.Grants E I) (f.Binds E.means) (fun _ s' => s'.Sees E I)
          (Item.function <$> linkFunction site f) s :=
        (decides_linkFunction hsite hs hd.1).after fun _ _ hs₁ => .pure hs₁
      exact hbody.bind fun _ s₁ hs₁ => (ih hs₁ hd.2).after fun _ _ hs₂ => .pure hs₂
    | global | imports | submodule =>
      exact (ih hs hd).after fun _ _ hs₁ => .pure hs₁

end Link

end Compilation

end FrontEnd
