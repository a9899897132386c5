import FrontEnd.Proofs.Binding.Finished
import FrontEnd.Proofs.Binding.Lookup
import FrontEnd.Proofs.Binding.Tracking

/-!
# Globals of other modules

A module records which globals of other modules it uses. The record can be read off the
linked module: it lists the globals of other modules that its variables and targets are
bound to, each once, in the order in which they occur first. A global of the module itself
is never among them, by whatever alias it has been named.
-/

namespace FrontEnd

theorem nodup_eraseDups {α : Type} [BEq α] [LawfulBEq α] : (l : List α) → l.eraseDups.Nodup
  | [] => .nil
  | a :: rest => by
    rw [List.eraseDups_cons, List.nodup_cons]
    refine ⟨fun h => ?_, nodup_eraseDups (rest.filter fun b => !b == a)⟩
    have hne := (List.mem_filter.mp (List.mem_eraseDups.mp h)).2
    simp at hne
termination_by l => l.length
decreasing_by exact Nat.lt_succ_of_le (List.length_filter_le _ _)

/-- The globals of other modules than `own`, in the order of their first occurrence. -/
def externalsAmong (own : ModulePath) (refs : List GlobalRef) : List GlobalRef :=
  (refs.filter fun ref => ref.module ≠ own).eraseDups

theorem externalsAmong_concat_own {own : ModulePath} {ref : GlobalRef} (h : ref.module = own)
    (refs : List GlobalRef) : externalsAmong own (refs ++ [ref]) = externalsAmong own refs := by
  simp [externalsAmong, List.filter_append, h]

theorem mem_externalsAmong {own : ModulePath} {ref : GlobalRef} {refs : List GlobalRef} :
    ref ∈ externalsAmong own refs ↔ ref ∈ refs ∧ ref.module ≠ own := by
  simp [externalsAmong]

/-- The global of another module is recorded where it is not yet. -/
theorem externalsAmong_concat_other {own : ModulePath} {ref : GlobalRef} (h : ref.module ≠ own)
    (refs : List GlobalRef) :
    externalsAmong own (refs ++ [ref]) = if ref ∈ externalsAmong own refs then
      externalsAmong own refs else externalsAmong own refs ++ [ref] := by
  have hlast : [ref].filter (fun ref => decide (ref.module ≠ own)) = [ref] := by simp [h]
  rw [externalsAmong, List.filter_append, hlast, List.eraseDups_append, externalsAmong]
  split
  · next hmem =>
    have hnone : [ref].removeAll (refs.filter fun ref => decide (ref.module ≠ own)) = [] := by
      simpa [List.removeAll] using List.mem_eraseDups.mp hmem
    rw [hnone, List.eraseDups_nil, List.append_nil]
  · next hnot =>
    have hself : [ref].removeAll (refs.filter fun ref => decide (ref.module ≠ own)) = [ref] := by
      simpa [List.removeAll, List.filter_cons] using fun h => hnot (List.mem_eraseDups.mpr h)
    rw [hself, List.eraseDups_cons, List.filter_nil, List.eraseDups_nil]

namespace Compilation

open Names (GlobalSymbol Symbols)

variable {site : Site} {s s' : Linking} {done : List GlobalRef}

/-- The globals of a module are its own, and of those that it uses it records the others. -/
structure Module.RecordsExternals (m : Module) : Prop where
  owned : ∀ g ∈ m.symbols.globals, g.ref.module = m.path
  externals : m.symbols.externals = externalsAmong m.path (globalRefsOf m.items)

/-- What is recorded while a module is linked, where some globals have been bound. -/
structure Linking.Records (own : ModulePath) (done : List GlobalRef) (s : Linking) : Prop where
  finished : s.registry.All Module.RecordsExternals
  owned : ∀ g ∈ s.symbols.globals, g.ref.module = own
  externals : s.symbols.externals = externalsAmong own done

namespace Linking.Records

variable {own : ModulePath}

theorem module_symbolsAt (h : s.Records own done) {target : ModulePath} {g : GlobalSymbol}
    (hg : g ∈ (s.symbolsAt own target).globals) : g.ref.module = target := by
  unfold Linking.symbolsAt at hg
  split at hg
  · next htarget => rw [htarget, h.owned g hg]
  · cases hm : s.registry.module? target with
    | none =>
      rw [hm] at hg
      cases hg
    | some m =>
      rw [hm] at hg
      obtain ⟨hpath, hrecords⟩ := h.finished.modules target m hm
      rw [hrecords.owned g hg, hpath]

theorem addImport (h : s.Records own done) {registry : Registry}
    (hregistry : registry.All Module.RecordsExternals) (handle target : ModulePath) :
    Linking.Records own done
      { s with registry, symbols := s.symbols.addImport handle target } :=
  ⟨hregistry, h.owned, h.externals⟩

theorem bindOwn (h : s.Records own done) {ref : GlobalRef} (href : ref.module = own) :
    s.Records own (done ++ [ref]) :=
  ⟨h.finished, h.owned, by rw [h.externals, externalsAmong_concat_own href]⟩

theorem bindOther (h : s.Records own done) {ref : GlobalRef} (href : ref.module ≠ own) :
    Linking.Records own (done ++ [ref]) { s with symbols := s.symbols.addExternal ref } := by
  have hexternals : (s.symbols.addExternal ref).externals = externalsAmong own (done ++ [ref]) := by
    rw [externalsAmong_concat_other href, ← h.externals, Symbols.addExternal]
    split <;> rfl
  have hglobals : (s.symbols.addExternal ref).globals = s.symbols.globals := by
    unfold Symbols.addExternal
    split <;> rfl
  exact ⟨h.finished, fun g hg => h.owned g (hglobals ▸ hg), hexternals⟩

end Linking.Records

namespace Link

theorem records_of_require (hsite : site.KeepsAll Module.RecordsExternals) {target : ModulePath}
    {token : Nat} {r registry : Registry} (hr : r.All Module.RecordsExternals)
    (h : site.require target (site.buffer.position token) r = .ok () registry) :
    registry.All Module.RecordsExternals := by
  have hkept := hsite target (site.buffer.position token) r hr
  rwa [h] at hkept

theorem records_targetModule (hsite : site.KeepsAll Module.RecordsExternals)
    (hs : s.Records site.own done) {leading : List String} {token : Nat} {target : ModulePath}
    (h : targetModule site leading token s = .ok target s') : s'.Records site.own done := by
  obtain ⟨-, rfl⟩ | ⟨-, -, registry, hrequire, rfl⟩ := targetModule_eq_ok h
  · exact hs
  · exact hs.addImport (records_of_require hsite hs.finished hrequire) _ _

/-- A global that is bound is recorded if it is one of another module. -/
theorem tracker_records (hsite : site.KeepsAll Module.RecordsExternals) :
    Tracker site (fun done s => s.Records site.own done) fun _ => True where
  scopes h _ := ⟨h.finished, h.owned, h.externals⟩
  bindsVariable token path := by
    refine Tracks.intro (fun {done s binding s'} hs hok => ?_) fun _ _ => trivial
    obtain ⟨name, -, rfl, ⟨slot, rfl⟩ | ⟨g, hg, rfl⟩⟩ |
      ⟨name, target, s₁, g, -, -, htarget, hg, rfl, rfl⟩ := bindVariable_eq_ok hok
    · rwa [Binding.globalRefs, List.append_nil]
    · exact hs.bindOwn (hs.owned g (Symbols.mem_of_global? hg).1)
    · have hs₁ := records_targetModule hsite hs htarget
      have hmodule := hs₁.module_symbolsAt (Symbols.mem_of_global? hg).1
      split
      · next hown => exact hs₁.bindOwn (hmodule.trans hown)
      · next hother => exact hs₁.bindOther (hmodule ▸ hother)
  bindsCall token path arity := by
    refine Tracks.intro (fun {done s refs s'} hs hok => ?_) fun _ _ => trivial
    rw [List.append_nil]
    obtain rfl | ⟨target, htarget⟩ := bindCall_eq_ok hok
    · exact hs
    · exact records_targetModule hsite hs htarget
  redeclared _ _ := trivial

/-- Declaring an item uses no global. -/
theorem records_declaresItem (hsite : site.KeepsAll Module.RecordsExternals)
    (hs : s.Records site.own done) {i i' : Item} (h : DeclaresItem site s i i' s') :
    s'.Records site.own done := by
  cases h with
  | imports i hgranted => exact hs.addImport (records_of_require hsite hs.finished hgranted) _ _
  | submodule m hgranted => exact hs.addImport (records_of_require hsite hs.finished hgranted) _ _
  | global g hdeclared =>
    obtain ⟨hmodule, -, rfl⟩ := Symbols.declareGlobal?_eq_some hdeclared
    refine ⟨hs.finished, ?_, hs.externals⟩
    rw [List.forall_mem_append, List.forall_mem_singleton]
    exact ⟨hs.owned, hmodule⟩
  | function f hdeclared =>
    obtain ⟨-, -, -, -, rfl⟩ := Symbols.declareFunction?_eq_some hdeclared
    exact ⟨hs.finished, hs.owned, hs.externals⟩

end Link

theorem givenByLinking_recordsExternals : GivenByLinking Module.RecordsExternals := by
  intro site items r r' m hsite hr h
  obtain ⟨items', s, hlinked, rfl, rfl⟩ := linkModule_eq_ok h
  obtain ⟨declared, s₁, hdeclare, hbodies⟩ := Link.linkItems_eq_ok hlinked
  have hstart : Linking.Records site.own []
      ⟨r, Symbols.empty.addImport site.own site.own, .closed⟩ :=
    ⟨hr, List.forall_mem_nil _, rfl⟩
  have hdeclared : s₁.Records site.own [] := Link.declareItems_induction
    (I := fun _ s => s.Records site.own []) hdeclare [] hstart fun hs hitem =>
      Link.records_declaresItem hsite hs hitem
  have htracks := Link.tracks_linkBodies (Link.tracker_records hsite) declared
  have hend := htracks.of_ok [] hdeclared hbodies
  exact ⟨hend.owned, hend.externals⟩

/-- **The record of external globals is exact.** Whatever is called on a compiler, and whether it
succeeds or not: a module that has been linked records the globals of other modules that its variables
and assignment targets are bound to, each once, in the order of their first occurrence, and none of
its own. -/
theorem externals_eq (calls : List (Sources × Call)) :
    ∀ m ∈ (filesAfter .empty calls).modules,
      m.symbols.externals =
          ((globalRefsOf m.items).filter fun ref => ref.module ≠ m.path).eraseDups ∧
        m.symbols.externals.Nodup ∧ ∀ ref ∈ m.symbols.externals, ref.module ≠ m.path := by
  intro m hm
  have hrecords := forall_modules_filesAfter givenByLinking_recordsExternals calls m hm
  have hexternals := hrecords.externals
  refine ⟨hexternals, ?_, fun ref href => ?_⟩
  · rw [hexternals]
    exact nodup_eraseDups _
  · rw [hexternals] at href
    exact (mem_externalsAmong.mp href).2

/-- `main` uses two globals of another module twice each, and one of its own. -/
def usedTwice : Sources :=
  .ofList [(⟨["main"]⟩, "import lib\nglobal g: i32\nfn f() \x7b\nlib.b = lib.a + g\nlib.a = lib.b\n\x7d"),
    (⟨["lib"]⟩, "pub global a: i32\npub global b: i32")]

theorem externals_eq_usedTwice :
    let calls : List (Sources × Call) := [(usedTwice, .compileEntry ⟨["main"]⟩)]
    ∃ m ∈ (filesAfter .empty calls).modules,
      m.path = ⟨["main"]⟩ ∧ m.symbols.externals = [⟨⟨["lib"]⟩, "a"⟩, ⟨⟨["lib"]⟩, "b"⟩] ∧
      m.symbols.externals =
          ((globalRefsOf m.items).filter fun ref => ref.module ≠ m.path).eraseDups ∧
        m.symbols.externals.Nodup ∧ ∀ ref ∈ m.symbols.externals, ref.module ≠ m.path := by
  intro calls
  have hexternals : (filesAfter .empty calls).modules.map
      (fun m => (m.path, m.symbols.externals)) =
        [(⟨["main"]⟩, [⟨⟨["lib"]⟩, "a"⟩, ⟨⟨["lib"]⟩, "b"⟩]), (⟨["lib"]⟩, [])] := by
    decide +kernel
  have hmain := List.mem_map.mp (hexternals ▸ List.mem_cons_self)
  obtain ⟨m, hm, hrecord⟩ := hmain
  obtain ⟨hpath, hrecord⟩ := Prod.mk.inj hrecord
  exact ⟨m, hm, hpath, hrecord, externals_eq calls m hm⟩

end Compilation

end FrontEnd
