import FrontEnd.Proofs.Acceptance.Aliases

/-!
# Linking the items of a module succeeds just if they fit

Items are declared just if their signatures are new, and what they select of other modules
is public there. After that all is known that the bodies depend on. So the items of a
module are linked just if no two have the same signature, what they select is public, and
the names of all functions are bound.
-/

namespace FrontEnd

/-- What the names of a function are looked up in. -/
def Function.code (f : Function) : List Param × Block := (f.params, f.body)

theorem Function.Binds.of_code {M : Meaning} {f f' : Function} (h : f'.code = f.code)
    (hf : f.Binds M) : f'.Binds M := by
  obtain ⟨hparams, hbody⟩ := Prod.mk.inj h
  exact ⟨hparams ▸ hf.params, hparams ▸ hbody ▸ hf.body⟩

/-- The parameters and bodies of the functions among some items. -/
def codeOf (items : List Item) : List (List Param × Block) :=
  (functionsOf items).map Function.code

theorem codeOf_cons (i : Item) (rest : List Item) :
    codeOf (i :: rest) = (i.function?.map Function.code).toList ++ codeOf rest := by
  cases i <;> rfl

theorem forall_binds_congr {M : Meaning} {items items' : List Item}
    (h : codeOf items' = codeOf items) :
    (∀ f ∈ functionsOf items', f.Binds M) ↔ ∀ f ∈ functionsOf items, f.Binds M := by
  have hcode : ∀ {is : List Item}, (∀ f ∈ functionsOf is, f.Binds M) ↔
      ∀ c ∈ codeOf is, ∀ f : Function, f.code = c → f.Binds M := by
    intro is
    rw [codeOf, List.forall_mem_map]
    exact ⟨fun h f hf _ hcode => (h f hf).of_code hcode, fun h f hf => h f hf f rfl⟩
  rw [hcode, hcode, h]

theorem mentionedIn_congr {items items' : List Item} (h : codeOf items' = codeOf items) :
    mentionedIn items' = mentionedIn items := by
  have hmap := congrArg (List.flatMap fun c => Block.dottedNames c.2) h
  rwa [codeOf, codeOf, List.flatMap_map, List.flatMap_map] at hmap

/-- What is declared after other declarations must be new. -/
theorem distinct_append_cons {done rest : List Declaration} {d : Declaration}
    (h : Distinct (done ++ d :: rest)) : d.signature ∉ done.map Declaration.signature := by
  rw [Distinct, List.map_append, List.map_cons, List.nodup_append] at h
  exact fun hmem => h.2.2 _ hmem _ List.mem_cons_self rfl

namespace Compilation

open Names (Symbols)

variable {E : Environment} {I : Registry → Prop} {site : Site} {s s' : Linking}

/-- What is requested and granted is finished then. -/
theorem Site.Granted.finished (hsite : site.Serves E I) {qs : List Request} {r r' : Registry}
    (h : site.Granted qs r r') (hI : I r) : I r' ∧ (∀ q ∈ qs, r'.HasFinished q.target) ∧
      ∀ m, r.HasFinished m → r'.HasFinished m := by
  induction h with
  | nil => exact ⟨hI, List.forall_mem_nil _, fun _ => id⟩
  | cons granted _ ih =>
    obtain ⟨hI', hfinished, hkept⟩ := ih (hsite.stays hI granted)
    exact ⟨hI', List.forall_mem_cons.mpr ⟨hkept _ (hsite.finished hI granted), hfinished⟩,
      fun m hm => hkept m (hsite.kept hI granted hm)⟩

namespace Link

theorem Decides.tracked {α : Type} {G C : Prop} {P : α → Linking → Prop} {x : Link α}
    (h : Decides G C P x s) : Decides G C (fun a s' => x s = .ok a s' ∧ P a s') x s :=
  ⟨fun hok => ⟨(h.sound hok).1, hok, (h.sound hok).2⟩, h.complete⟩

/-- Names are selected just if they are public. -/
theorem decides_checkSelected {G : Prop} (hsite : site.Serves E I) (hI : I s.registry)
    {target : ModulePath} (hfinished : s.registry.HasFinished target)
    (selected : List (Nat × String)) :
    Decides G (∀ n ∈ selected, ∃ arity, ⟨(n.2, arity), true⟩ ∈ E.declared target)
      (fun _ s' => s' = s) (checkSelected site target selected) s := by
  obtain ⟨m, hm⟩ := hfinished
  have hshows := hsite.shows hI target m hm
  induction selected with
  | nil => exact .pure_of (List.forall_mem_nil _) rfl
  | cons entry rest ih =>
    obtain ⟨token, name⟩ := entry
    rw [checkSelected, List.forall_mem_cons, ← hshows.exportsName_iff]
    refine Decides.get_bind ?_
    rw [hm]
    dsimp only
    split
    · next hhidden => exact .unresolved fun h => by simp [h.1] at hhidden
    · next hexports => exact ih.congr (iff_of_eq (by simp_all))

/-- A new declaration is made. -/
theorem decides_declared {G : Prop} {done : List Declaration} {d : Declaration} {symbols : Symbols}
    {i i' : Item} (hI : I s.registry) (hshows : symbols.Shows (done ++ [d]))
    (hnew : d.signature ∉ done.map Declaration.signature)
    (hcode : i'.function?.map Function.code = i.function?.map Function.code) :
    Decides G (d.signature ∉ done.map Declaration.signature)
      (fun i' s' => I s'.registry ∧ s'.symbols.Shows (done ++ [d]) ∧
        i'.function?.map Function.code = i.function?.map Function.code)
      (do modify fun s => { s with symbols }; return i') s := by
  have hmodify : Decides G True (fun _ s' => I s'.registry ∧ s'.symbols.Shows (done ++ [d]))
      (modify fun s => { s with symbols }) s :=
    .modify ⟨hI, hshows⟩
  exact (hmodify.before fun _ _ hs' => .pure ⟨hs'.1, hs'.2, hcode⟩).congr (iff_of_true trivial hnew)

/-- An item is declared just if its signature is new and what it selects is public. -/
theorem decides_declareItem (hsite : site.Serves E I) (hI : I s.registry) {done : List Declaration}
    (hs : s.symbols.Shows done) {i : Item}
    (hwanted : ∀ q ∈ i.requests site.own, E.wanted q.target) :
    Decides (site.Grants E I)
      ((∀ d ∈ i.declaration?, d.signature ∉ done.map Declaration.signature) ∧ i.Selects E.declared)
      (fun i' s' => I s'.registry ∧ s'.symbols.Shows (done ++ i.declaration?.toList) ∧
        i'.function?.map Function.code = i.function?.map Function.code)
      (declareItem site i) s := by
  cases i with
  | imports i =>
    refine Decides.congr (C := (Item.imports i).Selects E.declared) ?_ (by simp [Item.declaration?])
    refine (decides_importModule hsite hI (hwanted _ (List.mem_singleton_self _)) i.target
      i.token).before ?_
    rintro _ _ ⟨registry, rfl, hI', hfinished, -⟩
    refine (decides_checkSelected hsite hI' hfinished i.selected).after ?_
    rintro _ _ rfl
    exact .pure ⟨hI', by simpa [Item.declaration?] using hs.addImport _ _, rfl⟩
  | submodule m =>
    refine Decides.congr (C := True) ?_ (by simp [Item.declaration?, Item.Selects])
    refine (decides_importModule hsite hI (hwanted _ (List.mem_singleton_self _)) (.single m.name)
      m.token).before ?_
    rintro _ _ ⟨registry, rfl, hI', -, -⟩
    exact .pure ⟨hI', by simpa [Item.declaration?] using hs.addImport _ _, rfl⟩
  | global g =>
    have hsome : (s.symbols.declareGlobal? site.own g.name g.type g.isMutable g.isPublic).isSome ↔ _ :=
      Symbols.declareGlobal?_isSome
    rw [hs.mem_signatures_iff] at hsome
    refine Decides.get_bind (Decides.congr (C := (g.name, none) ∉ done.map Declaration.signature) ?_
      (by simp [Item.declaration?, Item.Selects]))
    cases hd : s.symbols.declareGlobal? site.own g.name g.type g.isMutable g.isPublic with
    | none => exact .fail fun h => by simpa [hd] using hsome.mpr h
    | some declared =>
      have hnew := hsome.mp (by rw [hd]; rfl)
      exact decides_declared hI (hs.append (Symbols.declarations_declareGlobal? hd) hnew) hnew rfl
  | function f =>
    have hsome : (s.symbols.declareFunction? site.own f.name f.arity f.isPublic).isSome ↔ _ :=
      Symbols.declareFunction?_isSome
    rw [hs.mem_signatures_iff] at hsome
    refine Decides.get_bind (Decides.congr
      (C := (f.name, some f.arity) ∉ done.map Declaration.signature) ?_
      (by simp [Item.declaration?, Item.Selects]))
    cases hd : s.symbols.declareFunction? site.own f.name f.arity f.isPublic with
    | none => exact .fail fun h => by simpa [hd] using hsome.mpr h
    | some declared =>
      have hnew := hsome.mp (by rw [hd]; rfl)
      exact decides_declared hI (hs.append (Symbols.declarations_declareFunction? hd) hnew) hnew rfl

/-- Items are declared just if all signatures are different and what they select is public. -/
theorem decides_declareItems (hsite : site.Serves E I) {items : List Item}
    (hwanted : ∀ q ∈ items.flatMap (Item.requests site.own), E.wanted q.target)
    (hI : I s.registry) {done : List Declaration} (hs : s.symbols.Shows done) :
    Decides (site.Grants E I)
      (Distinct (done ++ declarationsOf items) ∧ ∀ i ∈ items, i.Selects E.declared)
      (fun items' s' => I s'.registry ∧ s'.symbols.Shows (done ++ declarationsOf items) ∧
        codeOf items' = codeOf items)
      (declareItems site items) s := by
  induction items generalizing s done with
  | nil =>
    have hnil : done ++ declarationsOf [] = done := List.append_nil done
    rw [hnil]
    exact .pure_of ⟨hs.distinct, List.forall_mem_nil _⟩ ⟨hI, hs, rfl⟩
  | cons i rest ih =>
    rw [List.flatMap_cons, List.forall_mem_append] at hwanted
    have hcons : done ++ declarationsOf (i :: rest) =
        (done ++ i.declaration?.toList) ++ declarationsOf rest := by
      rw [declarationsOf, List.filterMap_cons, List.append_assoc]
      cases i.declaration? <;> rfl
    have hrest := (decides_declareItem hsite hI hs hwanted.1).bind fun i' s₁ h =>
      (ih hwanted.2 h.1 h.2.1).after fun rest' s₂ h' => Decides.pure (a := i' :: rest')
        (P := fun items' s' => I s'.registry ∧ s'.symbols.Shows (done ++ declarationsOf (i :: rest)) ∧
          codeOf items' = codeOf (i :: rest))
        ⟨h'.1, hcons ▸ h'.2.1, by rw [codeOf_cons, codeOf_cons, h.2.2, h'.2.2]⟩
    refine hrest.congr ?_
    rw [List.forall_mem_cons, hcons]
    refine ⟨fun h => ⟨h.2.1, h.1.2, h.2.2⟩, fun h => ⟨⟨fun d hd => ?_, h.2.1⟩, h.1, h.2.2⟩⟩
    have hdistinct := h.1
    rw [hd] at hdistinct
    exact distinct_append_cons (by simpa using hdistinct)

/-- After the items have been declared all is known that their bodies depend on. -/
theorem sees_of_declareItems (hsite : site.Serves E I) {items declared : List Item}
    (hE : E.Describes items) {T : Nat → Prop} (hitems : ∀ i ∈ items, i.WellFormed T) {r : Registry}
    (hr : I r) (hshows : s.symbols.Shows (declarationsOf items))
    (h : declareItems site items ⟨r, Symbols.empty.addImport site.own site.own, .closed⟩ =
      .ok declared s) : s.Sees E I := by
  have hmakes : Makes site T _ _ (declareItems site items) _ := makes_declareItems hitems
    ⟨r, Symbols.empty.addImport site.own site.own, .closed⟩
  unfold Makes at hmakes
  rw [h, asked_eq_self onDemand_of_mem_requests, hsite.own_eq] at hmakes
  obtain ⟨hgranted, himports, -⟩ := hmakes
  have haliases : s.symbols.imports = aliasesOf E.own items := himports
  obtain ⟨hI, hfinished, -⟩ := hgranted.finished hsite hr
  have htarget : ∀ handle, s.symbols.target? handle =
      ((aliasesOf E.own items).find? (·.1 == handle)).map (·.2) := by
    intro handle
    rw [Symbols.target?, haliases]
  refine ⟨hI, hE.declared ▸ hshows, fun leading => ?_, fun handle target hknown => ?_,
    fun d hd hnone => hE.wanted d hd ?_⟩
  · rw [htarget, hE.target leading, targetOf]
  · rw [htarget] at hknown
    obtain ⟨entry, hentry, rfl⟩ := Option.map_eq_some_iff.mp hknown
    rcases List.mem_append.mp (List.mem_of_find?_eq_some hentry) with hasked | hown
    · obtain ⟨q, hq, rfl⟩ := List.mem_map.mp (List.mem_reverse.mp hasked)
      exact .inr (hfinished q hq)
    · rw [List.mem_singleton.mp hown]
      exact .inl rfl
  · have hnot := not_mem_handles_of_target? hnone
    rwa [Linking.handles, haliases] at hnot

/-- The items of a module are linked just if their signatures are different, what they select is
public, and the names of all functions are bound. -/
theorem decides_linkItems (hsite : site.Serves E I) {items : List Item} (hE : E.Describes items)
    {T : Nat → Prop} (hitems : ∀ i ∈ items, i.WellFormed T) {r : Registry} (hr : I r) :
    Decides (site.Grants E I)
      ((Distinct (declarationsOf items) ∧ ∀ i ∈ items, i.Selects E.declared) ∧
        ∀ f ∈ functionsOf items, f.Binds E.means)
      (fun _ s' => I s'.registry ∧ s'.symbols.Shows (declarationsOf items))
      (linkItems site items) ⟨r, .empty, .closed⟩ := by
  have hwanted : ∀ q ∈ items.flatMap (Item.requests site.own), E.wanted q.target := by
    rw [hsite.own_eq]
    exact hE.requested
  have hdeclare := (decides_declareItems hsite hwanted (s := ⟨r, Symbols.empty.addImport site.own
    site.own, .closed⟩) hr (Symbols.Shows.empty.addImport site.own site.own)).tracked
  refine (Decides.modify (Q := fun _ s' =>
    s' = ⟨r, Symbols.empty.addImport site.own site.own, .closed⟩) rfl).before ?_
  rintro _ _ rfl
  refine hdeclare.bind ?_
  rintro declared s₁ ⟨hrun, -, hshows, hcode⟩
  have hsees := sees_of_declareItems hsite hE hitems hr hshows hrun
  have hmentioned : ∀ f ∈ functionsOf declared, Block.dottedNames f.body ⊆ E.mentioned := by
    intro f hf d hd
    refine hE.mentioned ?_
    rw [← mentionedIn_congr hcode]
    exact List.mem_flatMap.mpr ⟨f, hf, hd⟩
  refine ((decides_linkBodies hsite hsees hmentioned).congr (forall_binds_congr hcode)).weaken ?_
  exact fun _ s₂ hs₂ => ⟨hs₂.registry, hE.declared ▸ hs₂.own⟩

end Link

end Compilation

end FrontEnd
