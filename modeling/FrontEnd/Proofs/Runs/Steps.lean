import FrontEnd.Proofs.Runs.Derivation
import Mathlib.Logic.Relation

/-!
# Changes of the registry

While modules are compiled, and whether this succeeds or not, the registry changes in
three ways only: a file is registered, a ready file is started, and one in progress is
finished. Each change keeps a valid registry valid. Every file keeps its place, its name
and its text, and a finished one all that it holds.
-/

namespace FrontEnd.Compilation

open Text (Position)
open Registry

variable {sources : Sources} {r r' r'' : Registry} {path : ModulePath} {position : Position}
  {paths order : List ModulePath} {d : Diagnostic} {f f' f'' : File} {change : File → File}

theorem Offers.grows {r₁ : Registry} (h : Offers sources path r f r₁) (hgrows : r₁.Grows r')
    (hs : r'.search? path = some f') (hf : f'.IsFinished) : r.Grows r' := by
  cases h with
  | registered found ready => exact hgrows
  | loaded unknown load => exact .register unknown hgrows hs hf

/-- A file that was started and has been kept can be finished. -/
theorem Offers.search?_of_grows {r₁ r₂ : Registry} (h : Offers sources path r f r₁)
    (hgrows : (r₁.start path).Grows r₂) : r₂.search? path = some f.start :=
  hgrows.kept (search?_start_self h.search?.1) nofun

theorem Offers.search?_finish {r₁ r₂ : Registry} (h : Offers sources path r f r₁)
    (hgrows : (r₁.start path).Grows r₂) (tokens : Token.Buffer) (m : Module) :
    (r₂.finish path tokens m).search? path = some (f.start.finish tokens m) :=
  search?_finish_self (h.search?_of_grows hgrows) tokens m

theorem Offers.consistent_start {r₁ : Registry} (h : Offers sources path r f r₁)
    (hr : r.Consistent) : (r₁.start path).Consistent := by
  obtain ⟨hfound, hready⟩ := h.search?
  cases h with
  | registered found ready => exact hr.start hfound hready
  | loaded unknown load => exact (hr.register path _).start hfound hready

theorem Offers.consistent_finish {r₁ r₂ : Registry} (h : Offers sources path r f r₁)
    (hr : r.Consistent) (hgrows : (r₁.start path).Grows r₂) (tokens : Token.Buffer) (m : Module) :
    (r₂.finish path tokens m).Consistent :=
  (hgrows.consistent (h.consistent_start hr)).finish path tokens m

theorem Completes.grows (h : Completes sources paths r r' order) : r.Grows r' := by
  induction h with
  | nil => exact .refl _
  | finished _ _ _ ih => exact ih
  | compiled hoffers _ _ _ _ _ ihasked ihothers =>
    have hfinish := Grows.finish hoffers.search?.1 hoffers.search?.2 ihasked
    exact (hoffers.grows (hfinish _ _) (hoffers.search?_finish ihasked _ _) rfl).trans ihothers

namespace Registry

/-- A change of the registry. -/
inductive Step : Registry → Registry → Prop
  | register {r : Registry} {path : ModulePath} (unknown : r.search? path = none)
    (source : Source) : Step r (r.register path source)
  | start {r : Registry} {path : ModulePath} {f : File} (found : r.search? path = some f)
    (ready : f.state = .ready) : Step r (r.start path)
  | finish {r : Registry} {path : ModulePath} {f : File} (found : r.search? path = some f)
    (inProgress : f.state = .inProgress) (tokens : Token.Buffer) {m : Module}
    (path_eq : m.path = path) : Step r (r.finish path tokens m)

/-- Changes of the registry, one after the other. -/
abbrev Steps : Registry → Registry → Prop := Relation.ReflTransGen Step

end Registry

theorem Offers.steps {r₁ : Registry} (h : Offers sources path r f r₁) :
    r.Steps r₁ := by
  cases h with
  | registered found ready => exact .refl
  | loaded unknown load => exact .single (.register unknown _)

theorem Offers.steps_start {r₁ : Registry} (h : Offers sources path r f r₁) :
    r.Steps (r₁.start path) :=
  h.steps.tail (.start h.search?.1 h.search?.2)

theorem Completes.steps (h : Completes sources paths r r' order) : r.Steps r' := by
  induction h with
  | nil => exact .refl
  | finished _ _ _ ih => exact ih
  | compiled hoffers _ hasked hmade _ _ ihasked ihothers =>
    have hfound := hoffers.search?_of_grows hasked.grows
    have hpath := hmade.path.trans (path_of_search? hoffers.search?.1)
    exact ((hoffers.steps_start.trans ihasked).tail (.finish hfound rfl _ hpath)).trans ihothers

theorem Fails.steps {depth : Nat} (h : Fails sources depth path position r d r') :
    r.Steps r' := by
  induction h with
  | waiting | missing => exact .refl
  | exhausted hoffers => exact hoffers.steps
  | own hoffers _ hdone _ => exact hoffers.steps_start.trans hdone.steps
  | asked hoffers _ _ hdone _ ih => exact (hoffers.steps_start.trans hdone.steps).trans ih

/-! ## Files -/

/-- A file holds its module and its tokens just if it is finished, and the module is that of its
path. -/
structure File.Valid (f : File) : Prop extends f.Consistent where
  modulePath : ∀ m, f.module? = some m → m.path = f.path

/-- A file in a later registry that was there before: its path, name and text are the same, and if
it was finished then all of it is. -/
structure File.KeptAs (f f' : File) : Prop where
  path : f'.path = f.path
  name : f'.name = f.name
  text : f'.text = f.text
  finished : f.IsFinished → f' = f

namespace File

theorem Valid.ofSource (path : ModulePath) (source : Source) : (ofSource path source).Valid :=
  ⟨.ofSource path source, nofun⟩

theorem Valid.start (h : f.Valid) (hready : f.state = .ready) : f.start.Valid :=
  ⟨h.toConsistent.start hready, h.modulePath⟩

theorem Valid.finish {m : Module} (hm : m.path = f.path) (tokens : Token.Buffer) :
    (f.finish tokens m).Valid := by
  refine ⟨.finish f tokens m, ?_⟩
  rintro _ ⟨⟩
  exact hm

theorem KeptAs.refl (f : File) : f.KeptAs f := ⟨rfl, rfl, rfl, fun _ => rfl⟩

theorem KeptAs.trans (h : f.KeptAs f') (h' : f'.KeptAs f'') : f.KeptAs f'' := by
  refine ⟨h'.path.trans h.path, h'.name.trans h.name, h'.text.trans h.text, fun hf => ?_⟩
  obtain rfl := h.finished hf
  exact h'.finished hf

theorem KeptAs.start (hready : f.state = .ready) : f.KeptAs f.start :=
  ⟨rfl, rfl, rfl, fun hf => nomatch hready.symm.trans hf⟩

theorem KeptAs.finish (hstate : f.state = .inProgress) (tokens : Token.Buffer) (m : Module) :
    f.KeptAs (f.finish tokens m) :=
  ⟨rfl, rfl, rfl, fun hf => nomatch hstate.symm.trans hf⟩

end File

/-! ## Registries -/

namespace Registry

/-- Every file is found by its path, and only by that, and is valid itself. -/
structure Valid (r : Registry) : Prop where
  distinct : (r.files.map File.path).Nodup
  search : ∀ path f, r.search? path = some f ↔ f ∈ r.files ∧ f.path = path
  files : ∀ f ∈ r.files, f.Valid

/-- Files are added after the others at most. -/
def Keeps (r r' : Registry) : Prop :=
  ∀ (i : Nat) f, r.files[i]? = some f → ∃ f', r'.files[i]? = some f' ∧ f.KeptAs f'

theorem Valid.of_distinct (hd : r.Distinct) (h : ∀ path f, r.search? path = some f → f.Valid) :
    r.Valid where
  distinct := hd
  search path f := by
    constructor
    · exact fun h => ⟨List.mem_of_find?_eq_some h, path_of_search? h⟩
    · rintro ⟨hf, rfl⟩
      exact search?_of_mem hd hf
  files f hf := h f.path f (search?_of_mem hd hf)

theorem Valid.of_search? (hr : r.Valid) (path : ModulePath) (f : File)
    (hs : r.search? path = some f) : f.Valid :=
  hr.files f ((hr.search path f).mp hs).1

theorem valid_empty : Registry.empty.Valid := .of_distinct distinct_empty nofun

/-- Each change keeps a registry valid: a file that is started was ready and held nothing, and one
that is finished is given its tokens and its module at once. -/
theorem Step.valid (hr : r.Valid) (h : Step r r') : r'.Valid := by
  cases h with
  | @register path unknown source =>
    refine .of_distinct (Distinct.register hr.distinct path source) ?_
    exact forall_search?_register hr.of_search? (.ofSource path source)
  | @start path f found ready =>
    refine .of_distinct (Distinct.start hr.distinct path) ?_
    exact forall_search?_update hr.of_search? File.path_start found
      ((hr.of_search? path f found).start ready)
  | @finish path f found inProgress tokens m path_eq =>
    refine .of_distinct (Distinct.finish hr.distinct path tokens m) ?_
    exact forall_search?_update hr.of_search? (fun f => f.path_finish tokens m) found
      (.finish (path_eq.trans (path_of_search? found).symm) tokens)

theorem Keeps.refl (r : Registry) : r.Keeps r := fun _ f hf => ⟨f, hf, .refl f⟩

theorem Keeps.trans (h : r.Keeps r') (h' : r'.Keeps r'') : r.Keeps r'' := by
  intro i f hf
  obtain ⟨f', hf', hkept⟩ := h i f hf
  obtain ⟨f'', hf'', hkept'⟩ := h' i f' hf'
  exact ⟨f'', hf'', hkept.trans hkept'⟩

theorem keeps_register (h : r.search? path = none) (source : Source) :
    r.Keeps (r.register path source) := by
  intro i f hf
  refine ⟨f, ?_, .refl f⟩
  rw [register_eq h, List.getElem?_append_left (List.getElem?_eq_some_iff.mp hf).1]
  exact hf

/-- A change of one file leaves all others as they are. -/
theorem keeps_update (hr : r.Valid) (hfound : r.search? path = some f) (hf : f.KeptAs (change f)) :
    r.Keeps (r.update path change) := by
  intro i f₀ hf₀
  refine ⟨if f₀.path == path then change f₀ else f₀, ?_, ?_⟩
  · change (r.files.map _)[i]? = _
    rw [List.getElem?_map, hf₀]
    rfl
  · split
    · next hpath =>
      -- The only file of that path is the one that has been found.
      have hsame := (hr.search path f₀).mpr ⟨List.mem_of_getElem? hf₀, eq_of_beq hpath⟩
      rw [hfound] at hsame
      obtain rfl := Option.some.inj hsame
      exact hf
    · exact .refl f₀

theorem Step.keeps (hr : r.Valid) (h : Step r r') : r.Keeps r' := by
  cases h with
  | register unknown source => exact keeps_register unknown source
  | start found ready => exact keeps_update hr found (.start ready)
  | finish found inProgress tokens path_eq =>
    exact keeps_update hr found (.finish inProgress tokens _)

theorem Steps.valid (hr : r.Valid) (h : r.Steps r') : r'.Valid ∧ r.Keeps r' := by
  induction h with
  | refl => exact ⟨hr, .refl r⟩
  | tail _ hstep ih =>
    obtain ⟨hvalid, hkeeps⟩ := ih
    exact ⟨hstep.valid hvalid, hkeeps.trans (hstep.keeps hvalid)⟩

end Registry

end FrontEnd.Compilation
