import FrontEnd.Proofs.Runs.Termination

/-!
# Unrelated modules

A compilation looks up only modules that the entry leads to by imports, submodules and
dotted names. So it does not matter whether there are further modules, as long as none
of them is one that is missed.
-/

namespace FrontEnd.Compilation

open Registry
open Relation (ReflTransGen)
open Text (Position)

/-- A module is missed. -/
def Misses (d : Diagnostic) : Prop := ∃ name, d.cause = .moduleNotFound name

/-- A module can be reached from another one by references, each of which is spelled by an import, a
submodule or a dotted name. -/
def Reaches (load : ModulePath → Option Source) : ModulePath → ModulePath → Prop :=
  ReflTransGen fun a b => ∃ q position, RefersAt load a q position ∧ q.target = b

/-- All sources of modules are also given by the others. -/
def Sources.ServedBy (sources sources' : Sources) : Prop :=
  ∀ m source, sources.load m = some source → sources'.load m = some source

/-- What is given for further modules before does not matter for those that follow. -/
theorem Sources.servedBy_ofList (more texts : List (ModulePath × String)) :
    (ofList texts).ServedBy (ofList (more ++ texts)) := by
  intro m source h
  obtain ⟨entry, hfound, hsource⟩ := Option.map_eq_some_iff.mp h
  refine Option.map_eq_some_iff.mpr ⟨entry, ?_, hsource⟩
  rw [List.reverse_append, List.find?_append, hfound, Option.some_or]

variable {sources sources' : Sources} {r r' r₁ : Registry} {path : ModulePath} {f : File}
  {wanted order : List ModulePath} {position : Position} {d : Diagnostic} {depth : Nat}

/-! ## Further sources -/

theorem SameUnless.of_not {σ α : Type} {E : Diagnostic → Prop}
    {x y : EStateM.Result Diagnostic σ α} (h : SameUnless E x y)
    (hnot : ∀ d s, x = .error d s → ¬E d) : x = y :=
  h.resolve_right fun ⟨d, s, hd, hE⟩ => hnot d s hd hE

theorem requireWith_same {compile compile' : ModulePath → Compile Unit}
    (hserved : sources.ServedBy sources')
    (h : ∀ path r, SameUnless Misses (compile path r) (compile' path r)) :
    SameUnless Misses (requireWith sources compile path position r)
      (requireWith sources' compile' path position r) := by
  unfold requireWith
  refine get_bind_same ?_
  cases r.search? path with
  | some f =>
    dsimp only
    cases f.state with
    | finished => exact .inl rfl
    | inProgress => exact .inl rfl
    | ready => exact h path r
  | none =>
    dsimp only
    cases hload : sources.load path with
    | none => exact .inr ⟨_, r, rfl, _, rfl⟩
    | some source =>
      rw [hserved path source hload]
      exact modify_bind_same (h path _)

/-- Modules are compiled in the same way where there are further sources, unless one is missed. -/
theorem requireFrom_same (hserved : sources.ServedBy sources') :
    SameUnless Misses (requireFrom sources depth path position r)
      (requireFrom sources' depth path position r) := by
  induction depth generalizing path position r with
  | zero => exact requireWith_same hserved fun path r => .inl rfl
  | succ depth ih =>
    refine requireWith_same hserved fun path r => ?_
    refine compileModule_same (I := fun _ => True) (fun target position s _ => ?_) trivial
    exact ⟨ih, fun _ _ _ => trivial⟩

/-! ## What is looked up -/

theorem Reaches.tail {load : ModulePath → Option Source} {entry own : ModulePath} {q : Request}
    (h : Reaches load entry own) (hq : RefersAt load own q position) :
    Reaches load entry q.target :=
  ReflTransGen.tail h ⟨q, position, hq, rfl⟩

section Reaches

variable {entry : ModulePath}

theorem Offers.reaches_start (hoffers : Offers sources path r f r₁)
    (hr : ∀ m ∈ r.paths, Reaches sources.load entry m) (hpath : Reaches sources.load entry path) :
    ∀ m ∈ (r₁.start path).paths, Reaches sources.load entry m := by
  rw [Registry.paths_start]
  cases hoffers with
  | registered found ready => exact hr
  | loaded unknown load =>
    rw [paths_register unknown]
    exact List.forall_mem_append.mpr ⟨hr, List.forall_mem_singleton.mpr hpath⟩

theorem Offers.reaches_target (hoffers : Offers sources path r f r₁) (hloaded : r.Loaded sources)
    {buffer : Token.Buffer} {items : List Item} (hparsed : f.source.parse? = some (buffer, items))
    (hpath : Reaches sources.load entry path) :
    ∀ q ∈ references path items, Reaches sources.load entry q.target :=
  fun _ hq => hpath.tail (refersAt_of_mem (hoffers.load_eq hloaded) hparsed hq)

/-- Where modules are completed that can be reached, only such modules are registered. -/
theorem Completes.reaches (hcompletes : Completes sources wanted r r' order)
    (hloaded : r.Loaded sources) (hr : ∀ m ∈ r.paths, Reaches sources.load entry m)
    (hwanted : ∀ m ∈ wanted, Reaches sources.load entry m) :
    ∀ m ∈ r'.paths, Reaches sources.load entry m := by
  induction hcompletes with
  | nil => exact hr
  | finished _ _ _ ih => exact ih hloaded hr (List.forall_mem_cons.mp hwanted).2
  | compiled hoffers hparsed hasked _ _ _ ihasked ihothers =>
    obtain ⟨hpath, hrest⟩ := List.forall_mem_cons.mp hwanted
    have hstarted := hloaded.start hoffers
    refine ihothers ((hasked.loaded hstarted).finish _ _ _) ?_ hrest
    rw [paths_finish]
    refine ihasked hstarted (hoffers.reaches_start hr hpath) ?_
    exact List.forall_mem_map.mpr (hoffers.reaches_target hloaded hparsed hpath)

/-- Where a module that can be reached is not completed, only such modules are registered, and one
that is missed is one of them. -/
theorem Fails.reaches (hfails : Fails sources depth path position r d r')
    (hloaded : r.Loaded sources) (hr : ∀ m ∈ r.paths, Reaches sources.load entry m)
    (hpath : Reaches sources.load entry path) :
    (∀ m ∈ r'.paths, Reaches sources.load entry m) ∧
    ∀ name, d.cause = .moduleNotFound name → ∃ m, m.toText = name ∧ sources.load m = none ∧
      Reaches sources.load entry m := by
  induction hfails with
  | waiting => exact ⟨hr, nofun⟩
  | missing unknown load =>
    refine ⟨hr, ?_⟩
    rintro name ⟨⟩
    exact ⟨_, rfl, load, hpath⟩
  | exhausted hoffers =>
    have hstart := hoffers.reaches_start hr hpath
    rw [Registry.paths_start] at hstart
    exact ⟨hstart, nofun⟩
  | own hoffers hasked hdone hfault =>
    have hstarted := hloaded.start hoffers
    refine ⟨hdone.reaches hstarted (hoffers.reaches_start hr hpath) fun b hb => ?_, ?_⟩
    · obtain ⟨buffer, items, hparsed, hb⟩ := hasked b hb
      obtain ⟨q, hq, rfl⟩ := List.mem_map.mp hb
      exact hoffers.reaches_target hloaded hparsed hpath q hq
    · intro name hname
      have hown := hfault.isOwn
      rw [hname] at hown
      exact hown.elim
  | asked hoffers hparsed heq hdone _ ih =>
    have hstarted := hloaded.start hoffers
    have htargets := hoffers.reaches_target hloaded hparsed hpath
    rw [heq, List.forall_mem_append, List.forall_mem_cons] at htargets
    obtain ⟨hbefore, hq, -⟩ := htargets
    refine ih (hdone.loaded hstarted) ?_ hq
    exact hdone.reaches hstarted (hoffers.reaches_start hr hpath) (List.forall_mem_map.mpr hbefore)

end Reaches

/-- **Unrelated modules have no influence.** Let all sources of modules be among others. A compilation
on a new compiler, with a result or without, ends in the same way with the others and leaves the same
files, unless it misses a module. Only modules are registered or missed to which the entry leads by
imports, submodules and names with a dot. -/
theorem compileEntry_unrelated (hbounded : sources.Bounded) (hbounded' : sources'.Bounded)
    (hserved : sources.ServedBy sources') (entry : ModulePath) :
    ((∀ d r, compileEntry sources entry .empty = .error d r → ¬Misses d) →
      compileEntry sources' entry .empty = compileEntry sources entry .empty) ∧
    (∀ m ∈ (remaining (compileEntry sources entry .empty)).paths,
      Reaches sources.load entry m) ∧
    ∀ d r name, compileEntry sources entry .empty = .error d r → d.cause = .moduleNotFound name →
      ∃ m, m.toText = name ∧ sources.load m = none ∧ Reaches sources.load entry m := by
  have hloaded : Registry.empty.Loaded sources := List.forall_mem_nil _
  have hpaths : ∀ m ∈ Registry.empty.paths, Reaches sources.load entry m := List.forall_mem_nil _
  have hentry : Reaches sources.load entry entry := ReflTransGen.refl
  refine ⟨fun hnot => ?_, ?_, fun d r name h => ?_⟩
  · -- Both compilations may go equally deep without a difference to either.
    have hle : sources.bound + Registry.empty.files.length ≤ sources.bound + sources'.bound :=
      Nat.le_add_right _ _
    have hle' : sources'.bound + Registry.empty.files.length ≤ sources.bound + sources'.bound :=
      Nat.le_add_left _ _
    unfold compileEntry at hnot ⊢
    rw [← requireFrom_eq_require hbounded hle] at hnot ⊢
    rw [← requireFrom_eq_require hbounded' hle']
    exact ((requireFrom_same hserved).of_not hnot).symm
  · cases h : compileEntry sources entry .empty with
    | ok _ r =>
      obtain ⟨order, hcompletes⟩ := requireFrom_completes h
      exact hcompletes.reaches hloaded hpaths (List.forall_mem_singleton.mpr hentry)
    | error d r => exact ((requireFrom_fails h).reaches hloaded hpaths hentry).1
  · exact ((requireFrom_fails h).reaches hloaded hpaths hentry).2 name

/-- The text of a module that calls a function of another one. -/
def callsTwice : List (ModulePath × String) :=
  [(⟨["main"]⟩, "import util\nfn main(x: i32): i32 \x7b\nreturn util.twice(x)\n\x7d"),
    (⟨["util"]⟩, "pub fn twice(n: i32): i32 \x7b\nreturn n + n\n\x7d")]

/-- Modules that have the names of a local and of a function, or are near to one that is imported. -/
def sameNames : List (ModulePath × String) :=
  [(⟨["x"]⟩, "?"), (⟨["twice"]⟩, "import x"), (⟨["main", "util"]⟩, "pub global n: i32")]

theorem compileEntry_unrelated_sameNames :
    compileEntry (.ofList (sameNames ++ callsTwice)) ⟨["main"]⟩ .empty =
      compileEntry (.ofList callsTwice) ⟨["main"]⟩ .empty ∧
    (remaining (compileEntry (.ofList callsTwice) ⟨["main"]⟩ .empty)).paths =
      [⟨["main"]⟩, ⟨["util"]⟩] ∧
    Reaches (Sources.ofList callsTwice).load ⟨["main"]⟩ ⟨["util"]⟩ := by
  have hpaths : (remaining (compileEntry (.ofList callsTwice) ⟨["main"]⟩ .empty)).paths =
      [⟨["main"]⟩, ⟨["util"]⟩] := by
    decide +kernel
  have hok : failure? (compileEntry (.ofList callsTwice) ⟨["main"]⟩ .empty) = none := by
    decide +kernel
  obtain ⟨hsame, hreaches, -⟩ := compileEntry_unrelated (Sources.bounded_ofList callsTwice)
    (Sources.bounded_ofList _) (Sources.servedBy_ofList sameNames callsTwice) ⟨["main"]⟩
  refine ⟨hsame fun d r h => ?_, hpaths, hreaches _ ?_⟩
  · rw [h] at hok
    cases hok
  · rw [hpaths]
    exact List.mem_cons_of_mem _ (List.mem_singleton_self _)

end FrontEnd.Compilation
