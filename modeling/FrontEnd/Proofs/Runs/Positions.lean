import FrontEnd.Proofs.Runs.Building
import FrontEnd.Proofs.Runs.Failures
import FrontEnd.Proofs.Runs.Termination
import FrontEnd.Proofs.Token.Places

/-!
# Where failures point

A call that fails points into the text of a file that it has left in progress: the file
is at fault itself, or it holds the reference that could not be followed. Only where there
is no text for the module to start with is there no file to point into.
-/

namespace FrontEnd.Compilation

open Registry
open Text (Position)

theorem Sources.nameOf_injOn {m m' : ModulePath} (h : AreNames m.segments)
    (h' : AreNames m'.segments) (heq : nameOf m = nameOf m') : m = m' := by
  have hread : ∀ {m : ModulePath}, AreNames m.segments →
      ("/".intercalate m.segments).toList.splitOn '/' = m.written.map String.toList := by
    intro m h
    have hmark : "/".toList = ['/'] := rfl
    rw [← splitOn_intercalate hmark m.written_ne_nil (ModulePath.notMem_written (by decide) h)]
    unfold ModulePath.written
    split
    · next hempty =>
      rw [hempty]
      rfl
    · rfl
  have hlist := congrArg String.toList heq
  simp only [nameOf, String.toList_append] at hlist
  have hsplit := congrArg (List.splitOn '/')
    (List.append_cancel_right (List.append_cancel_right hlist))
  rw [hread h, hread h'] at hsplit
  exact ModulePath.written_injOn h h'
    (List.map_injective_iff.mpr (fun _ _ hs => String.toList_injective hs) hsplit)

theorem Sources.name_of_load_ofList {texts : List (ModulePath × String)} {m : ModulePath}
    {source : Source} (h : (ofList texts).load m = some source) : source.name = nameOf m := by
  obtain ⟨entry, -, rfl⟩ := Option.map_eq_some_iff.mp h
  rfl

/-- What a file gives rise to a failure with: it is at fault itself, or a module that it refers to has
no text, or waits for it. -/
inductive File.Raises (sources : Sources) (f : File) (d : Diagnostic) : Prop
  | own (fault : f.Faults d)
  | missing {q : Request} (refers : RefersAt sources.load f.path q d.position)
    (cause : d.cause = .moduleNotFound q.target.toText)
  | waiting {q : Request} (refers : RefersAt sources.load f.path q d.position)
    (cause : d.cause = .circularDependency q.target.toText)

/-- A diagnostic points into a file: one that is registered and in progress, whose name and text are
those that are shown with it. -/
structure Registry.PointsInto (r : Registry) (d : Diagnostic) (f : File) : Prop where
  registered : r.search? f.path = some f
  inProgress : f.state = .inProgress
  position : d.position.IsIn f.name f.text
  source : r.sourceOf? d = some f.text

variable {sources : Sources} {r r' : Registry} {path entry : ModulePath} {f : File}
  {position : Position} {d : Diagnostic} {entered : List ModulePath}
  {texts : List (ModulePath × String)}

theorem File.Faults.start (h : f.Faults d) : f.start.Faults d := by
  cases h with
  | scanning failed => exact .scanning failed
  | reading scanned failed => exact .reading scanned failed
  | flattening parsed failed => exact .flattening parsed failed
  | linking parsed flattened failed token cause =>
    exact .linking parsed flattened failed token cause

/-- The place of a fault is in the text of the file. -/
theorem File.Faults.position_isIn (h : f.Faults d) : d.position.IsIn f.name f.text := by
  cases h with
  | scanning failed =>
    have hscan := Token.startsIn_scan f.name f.text
    rwa [failed] at hscan
  | reading scanned failed => exact Token.Buffer.position_isIn scanned _
  | flattening parsed failed =>
    exact Token.Buffer.position_isIn (Source.parse?_eq_some.mp parsed).1 _
  | linking parsed flattened failed token cause =>
    exact Token.Buffer.position_isIn (Source.parse?_eq_some.mp parsed).1 _

theorem RefersAt.position_isIn {load : ModulePath → Option Source} {source : Source} {q : Request}
    (h : RefersAt load path q position) (hload : load path = some source) :
    position.IsIn source.name source.text := by
  obtain ⟨hload', hparsed, -, -⟩ := h
  cases hload.symm.trans hload'
  exact Token.Buffer.position_isIn (Source.parse?_eq_some.mp hparsed).1 _

theorem File.Raises.position_isIn (h : f.Raises sources d)
    (hload : sources.load f.path = some f.source) : d.position.IsIn f.name f.text := by
  cases h with
  | own fault => exact fault.position_isIn
  | missing refers | waiting refers => exact refers.position_isIn hload

/-- A module cannot be completed because there is no text of it, or because it is waiting: then
nothing has been done. Otherwise a file has been left in progress that gives rise to the failure. -/
theorem Breaks.exists_raises (hbreaks : Breaks sources path position r d r' entered)
    (hloaded : r.Loaded sources) :
    (d = ⟨.moduleNotFound path.toText, position⟩ ∧ r' = r) ∨
    (d = ⟨.circularDependency path.toText, position⟩ ∧ r' = r ∧ r.Waiting path) ∨
    ∃ f, r'.search? f.path = some f ∧ f.state = .inProgress ∧ f.Raises sources d := by
  induction hbreaks with
  | waiting found inProgress => exact .inr (.inl ⟨rfl, rfl, _, found, inProgress⟩)
  | missing unknown load => exact .inl ⟨rfl, rfl⟩
  | @own path _ r r₁ r' f _ _ d hoffers _ hdone hfault =>
    have hkept := hoffers.search?_of_grows hdone.grows
    obtain rfl := path_of_search? hoffers.search?.1
    exact .inr (.inr ⟨f.start, hkept, rfl, .own hfault.start⟩)
  | @asked path _ r r₁ r₂ _ f _ items _ _ q _ _ d hoffers hparsed heq hdone _ ih =>
    have hq : q ∈ references path items := heq ▸ List.mem_append_right _ List.mem_cons_self
    have hrefers := refersAt_of_mem (hoffers.load_eq hloaded) hparsed hq
    have hkept := hoffers.search?_of_grows hdone.grows
    obtain rfl := path_of_search? hoffers.search?.1
    -- The file that asks is the one to point into, unless it is one that is entered after it.
    rcases ih (hdone.loaded (hloaded.start hoffers)) with
      ⟨rfl, rfl⟩ | ⟨rfl, rfl, -⟩ | hdeeper
    · exact .inr (.inr ⟨f.start, hkept, rfl, .missing hrefers rfl⟩)
    · exact .inr (.inr ⟨f.start, hkept, rfl, .waiting hrefers rfl⟩)
    · exact .inr (.inr hdeeper)

/-- The text that is shown for the name of a file is that of the file, where names tell modules
apart. -/
theorem Registry.Loaded.findNamed? (hloaded : r.Loaded sources) (hf : f ∈ r.files)
    (hnames : ∀ g ∈ r.files, g.name = f.name → g.path = f.path) :
    (r.findNamed? f.name).map File.text = some f.text := by
  unfold Registry.findNamed?
  cases hfound : r.files.find? (·.name == f.name) with
  | none =>
    have hself := List.find?_eq_none.mp hfound f hf
    exact absurd BEq.rfl hself
  | some g =>
    have hname := List.find?_some hfound
    have hg := List.mem_of_find?_eq_some hfound
    have hsource := hloaded g hg
    rw [hnames g hg (eq_of_beq hname), hloaded f hf] at hsource
    exact congrArg (fun source => source.map Source.text) hsource.symm

theorem Registry.Built.areNames (h : r.Built fun m => AreNames m.segments) (hf : f ∈ r.files) :
    AreNames f.path.segments := by
  cases hs : r.search? f.path with
  | some g => exact h.paths hs
  | none => exact absurd BEq.rfl (List.find?_eq_none.mp hs f hf)

/-- **Every failure points into the right text.** Where the compilation of a module fails on a new
compiler, either there is no text of that module, and then none is shown; or the diagnostic points
into a file that is in progress, to a place in its text and not into a character, it is shown with
the text of that file, and it is this file that gives rise to the failure. -/
theorem compileEntry_pointsInto (hentry : AreNames entry.segments)
    (h : compileEntry (.ofList texts) entry .empty = .error d r) :
    (d = ⟨.moduleNotFound entry.toText, .null⟩ ∧ r.sourceOf? d = none) ∨
    ∃ f, r.PointsInto d f ∧ f.Raises (.ofList texts) d := by
  have hfails := requireFrom_fails h
  have hempty : Registry.empty.Loaded (.ofList texts) := List.forall_mem_nil _
  have hloaded := hfails.loaded hempty
  have hbuilt := hfails.built closedUnderReferences_areNames (built_empty _) hentry
  obtain ⟨entered, hends⟩ := exists_ends (Sources.bounded_ofList texts) entry .null .empty
  rw [← compileEntry, h] at hends
  obtain hbreaks : Breaks (.ofList texts) entry .null .empty d r entered := by
    cases hends with
    | breaks hbreaks => exact hbreaks
  rcases hbreaks.exists_raises hempty with ⟨rfl, rfl⟩ | ⟨-, -, hwaits⟩ | ⟨f, hs, hstate, hraises⟩
  · exact .inl ⟨rfl, rfl⟩
  · exact absurd hwaits not_waiting_empty
  · have hf := List.mem_of_find?_eq_some hs
    have hplace := hraises.position_isIn (hloaded f hf)
    refine .inr ⟨f, ⟨hs, hstate, hplace, ?_⟩, hraises⟩
    unfold Registry.sourceOf?
    rw [hplace.file]
    refine hloaded.findNamed? hf fun g hg hname => ?_
    have hnames : ∀ g ∈ r.files, g.name = Sources.nameOf g.path :=
      fun g hg => Sources.name_of_load_ofList (hloaded g hg)
    rw [hnames g hg, hnames f hf] at hname
    exact Sources.nameOf_injOn (hbuilt.areNames hg) (hbuilt.areNames hf) hname

/-- `util` calls a function that is declared nowhere, after a letter of two bytes. -/
def misspelled : Sources :=
  .ofList [(⟨["main"]⟩, "import util\nfn main() \x7b\x7d"),
    (⟨["util"]⟩, "// ä\npub fn f() \x7b g() \x7d")]

theorem compileEntry_pointsInto_misspelled :
    ∃ r f, compileEntry misspelled ⟨["main"]⟩ .empty =
        .error ⟨.unresolvedIdentifier "g", ⟨19, "util.eb"⟩⟩ r ∧
      r.PointsInto ⟨.unresolvedIdentifier "g", ⟨19, "util.eb"⟩⟩ f ∧
      f.Raises misspelled ⟨.unresolvedIdentifier "g", ⟨19, "util.eb"⟩⟩ := by
  have hfailure : failure? (compileEntry misspelled ⟨["main"]⟩ .empty) =
      some ⟨.unresolvedIdentifier "g", ⟨19, "util.eb"⟩⟩ := by
    decide +kernel
  obtain ⟨r, h⟩ := exists_of_failure? hfailure
  rcases compileEntry_pointsInto (by decide) h with
    ⟨hmissing, -⟩ | ⟨f, hpoints, hraises⟩
  · cases hmissing
  · exact ⟨r, f, h, hpoints, hraises⟩

end FrontEnd.Compilation
