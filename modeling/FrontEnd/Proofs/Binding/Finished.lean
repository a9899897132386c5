import FrontEnd.Proofs.Runs.Building
import FrontEnd.Proofs.Runs.Order

/-!
# What all finished modules have in common

A module is finished when its items have been linked, and then it is changed no more. So a
property that linking gives to a module, where those that it may look up have it already,
is one of all finished modules, whatever has been called and whether it has succeeded or
not.
-/

namespace FrontEnd.Compilation

open Registry
open Text (Position)

variable {P : Module → Prop} {sources : Sources} {r r' r₁ : Registry} {path other : ModulePath}
  {position : Position} {depth : Nat} {f : File} {m m' : Module} {site : Site} {d : Diagnostic}
  {qs : List Request}

/-- Finished files, and no others, hold modules. All of these have the property, and each stands
under its own path. -/
structure Registry.All (P : Module → Prop) (r : Registry) : Prop where
  consistent : r.Consistent
  modules : ∀ path m, r.module? path = some m → m.path = path ∧ P m

/-- Asking for a module keeps what is true of all finished modules, whether it is granted or not. -/
def Site.KeepsAll (P : Module → Prop) (site : Site) : Prop :=
  ∀ target position r, r.All P → (remaining (site.require target position r)).All P

/-- Linking gives the property to a module if all have it that can be looked up meanwhile. -/
def GivenByLinking (P : Module → Prop) : Prop :=
  ∀ {site : Site} {items : List Item} {r r' : Registry} {m : Module}, site.KeepsAll P → r.All P →
    linkModule site items r = .ok m r' → P m

/-- The module has come out of linking. -/
def Module.IsLinked (m : Module) : Prop :=
  ∃ site items r r', linkModule site items r = .ok m r'

theorem givenByLinking_isLinked : GivenByLinking Module.IsLinked :=
  fun _ _ h => ⟨_, _, _, _, h⟩

theorem path_of_linkModule {items : List Item} (h : linkModule site items r = .ok m r') :
    m.path = site.own := by
  obtain ⟨_, _, -, rfl, -⟩ := linkModule_eq_ok h
  rfl

namespace Registry.All

theorem empty : Registry.empty.All P := ⟨consistent_empty, nofun⟩

theorem of_module? (h : r.All P) (hconsistent : r'.Consistent)
    (heq : ∀ other, r'.module? other = r.module? other) : r'.All P := by
  refine ⟨hconsistent, fun other m hm => ?_⟩
  rw [heq] at hm
  exact h.modules other m hm

theorem register (h : r.All P) (path : ModulePath) (source : Source) :
    (r.register path source).All P := by
  refine h.of_module? (h.consistent.register path source) fun other => ?_
  cases hs : r.search? path with
  | none => exact module?_register hs source other
  | some f =>
    unfold Registry.register
    rw [hs]

theorem offers (h : r.All P) (hoffers : Offers sources path r f r₁) : r₁.All P := by
  cases hoffers with
  | registered found ready => exact h
  | loaded unknown load => exact h.register path _

theorem start (h : r.All P) (hoffers : Offers sources path r f r₁) : (r₁.start path).All P :=
  h.of_module? (hoffers.consistent_start h.consistent) hoffers.module?_start

theorem finish (h : r.All P) (hpath : m.path = path) (hm : P m) (buffer : Token.Buffer) :
    (r.finish path buffer m).All P := by
  refine ⟨h.consistent.finish path buffer m, fun other m' hm' => ?_⟩
  obtain ⟨rfl, rfl⟩ | hold := module?_finish hm'
  · exact ⟨hpath, hm⟩
  · exact h.modules other m' hold

theorem of_mem_modules (h : r.All P) (hvalid : r.Valid) (hm : m ∈ r.modules) : P m := by
  obtain ⟨f, hf, hfm⟩ := mem_modules.mp hm
  have hs := (hvalid.search f.path f).mpr ⟨hf, rfl⟩
  exact (h.modules f.path m (module?_eq_some.mpr ⟨f, hs, hfm⟩)).2

end Registry.All

theorem Site.Granted.all (h : site.Granted qs r r') (hsite : site.KeepsAll P) (hr : r.All P) :
    r'.All P := by
  induction h with
  | nil => exact hr
  | @cons q _ r _ _ granted _ ih =>
    have hkept := hsite q.target (site.buffer.position q.token) r hr
    rw [granted] at hkept
    exact ih hkept

theorem Site.Refused.all {T : Nat → Prop} (h : site.Refused T qs r d r') (hsite : site.KeepsAll P)
    (hr : r.All P) : r'.All P := by
  induction h with
  | own => exact hr
  | @refused q _ r _ _ failed =>
    have hkept := hsite q.target (site.buffer.position q.token) r hr
    rwa [failed] at hkept
  | @granted q _ r _ _ _ granted _ ih =>
    have hkept := hsite q.target (site.buffer.position q.token) r hr
    rw [granted] at hkept
    exact ih hkept

theorem compileModule_all {require : ModulePath → Position → Compile Unit}
    (hP : GivenByLinking P) (hrequire : ∀ buffer, Site.KeepsAll P ⟨path, buffer, require⟩)
    (hoffers : Offers sources path r f r₁) (hr : r.All P) :
    (remaining (compileModule require path r₁)).All P := by
  have hstart := hr.start hoffers
  cases h : compileModule require path r₁ with
  | ok _ r' =>
    obtain ⟨buffer, items, flat, m, r₂, hparsed, hnormalized, hm, rfl⟩ :=
      (compileModule_eq_ok_iff hoffers.search?.1).mp h
    have hflat := wellFormed_of_normalize hnormalized <|
      ShortCircuit.wellFormed_lowerItems (wellFormed_of_parse? hparsed)
    have hlater := (linkModule_granted hflat hm).1.all (hrequire buffer) hstart
    exact hlater.finish (path_of_linkModule hm) (hP (hrequire buffer) hstart hm) buffer
  | error d r' =>
    obtain ⟨-, rfl⟩ | ⟨buffer, items, flat, -, -, -, hrefused⟩ :=
      compileModule_eq_error hoffers.search?.1 h
    · exact hstart
    · exact hrefused.all (hrequire buffer) hstart

/-- Asking for a module keeps what linking gives to each. -/
theorem requireFrom_all (hP : GivenByLinking P) (hr : r.All P) :
    (remaining (requireFrom sources depth path position r)).All P := by
  induction depth generalizing path position r with
  | zero =>
    cases h : requireFrom sources 0 path position r with
    | ok _ r' =>
      obtain ⟨-, -, -, rfl⟩ | ⟨f, r₁, -, hthrow⟩ := requireWith_eq_ok h
      · exact hr
      · cases hthrow
    | error d r' =>
      obtain ⟨-, -, -, -, rfl⟩ | ⟨-, -, -, rfl⟩ | ⟨f, r₁, hoffers, hthrow⟩ := requireWith_eq_error h
      · exact hr
      · exact hr
      · cases hthrow
        exact hr.offers hoffers
  | succ depth ih =>
    have hcompile : ∀ {f r₁}, Offers sources path r f r₁ →
        (remaining (compileModule (requireFrom sources depth) path r₁)).All P := fun hoffers =>
      compileModule_all hP (fun _ _ _ _ hs => ih hs) hoffers hr
    cases h : requireFrom sources (depth + 1) path position r with
    | ok _ r' =>
      obtain ⟨-, -, -, rfl⟩ | ⟨f, r₁, hoffers, hok⟩ := requireWith_eq_ok h
      · exact hr
      · have hlater := hcompile hoffers
        rwa [hok] at hlater
    | error d r' =>
      obtain ⟨-, -, -, -, rfl⟩ | ⟨-, -, -, rfl⟩ | ⟨f, r₁, hoffers, herror⟩ := requireWith_eq_error h
      · exact hr
      · exact hr
      · have hlater := hcompile hoffers
        rwa [herror] at hlater

theorem Call.filesAfter_all (hP : GivenByLinking P) (hr : r.All P) (sources : Sources)
    (call : Call) : (call.filesAfter sources r).All P := by
  cases call with
  | register path source => exact hr.register path source
  | compileEntry path | require path position => exact requireFrom_all hP hr

/-- Whatever is called, what linking gives to each module is true of all finished ones. -/
theorem filesAfter_all (hP : GivenByLinking P) (hr : r.All P) (calls : List (Sources × Call)) :
    (filesAfter r calls).All P := by
  induction calls generalizing r with
  | nil => exact hr
  | cons call rest ih => exact ih (call.2.filesAfter_all hP hr call.1)

theorem forall_modules_filesAfter (hP : GivenByLinking P) (calls : List (Sources × Call)) :
    ∀ m ∈ (filesAfter .empty calls).modules, P m := fun _ hm =>
  (filesAfter_all hP .empty calls).of_mem_modules
    ((filesAfter_steps .empty calls).valid valid_empty).1 hm

end FrontEnd.Compilation
