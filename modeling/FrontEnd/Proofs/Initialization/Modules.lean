import FrontEnd.Proofs.Initialization.Flattening
import FrontEnd.Proofs.Runs.Occurrences

/-!
# Temporaries of a module

One count of temporaries serves all functions of a module, so no two of them declare the
same one. In a function no temporary is in scope from the start.
-/

namespace FrontEnd

/-- The temporaries that the functions of a module declare, at any depth. -/
def declaredTemporaries (items : List Item) : List String :=
  (functionsOf items).flatMap fun f => Block.temporaries f.body

/-- A flat function of a module uses temporaries soundly. -/
structure TemporariesSound (flat : List Item) (f : Function) : Prop where
  /-- No expression of the function holds a conditional, at any depth. -/
  plain : Block.IsPlain f.body
  /-- Each temporary that is read, assigned or declared is declared once in the whole module. -/
  declared_once : ∀ path ∈ Block.paths f.body, ∀ name, ControlFlow.temporary? path = some name →
    (declaredTemporaries flat).count name = 1
  /-- It is read and assigned after that, in the same block or in a block nested in it. -/
  in_scope : Block.Scoped ∅ f.body
  /-- Where a path reads it, it has been initialized or assigned since its declaration. -/
  initialized : ∀ es flow, Block.HasPath f.body es flow → ReadsHold [] es

namespace ControlFlow

open Emit

variable {items flat : List Item} {m m' : Nat}

/-- The body of a flat function keeps to the rules from the empty scope on. -/
theorem written_flattenFunction {f g : Function} {pre : Block}
    (h : (flattenFunction f).run m = ⟨.ok g, pre, m'⟩) (hs : IsSource (Block.paths f.body)) :
    ∃ σ', Written .empty m m' g.body σ' := by
  obtain ⟨body, hbody, rfl, -⟩ := run_flattenFunction_eq_ok h
  obtain ⟨σ', hw⟩ : ∃ σ', Written .empty m m' body σ' := by
    cases hvoid : f.returnType.isVoid with
    | true =>
      rw [hvoid] at hbody
      obtain ⟨σ', hw, -⟩ := block_written f.body 0 hbody hs (Tail.fits_drop _) .empty
        (Tail.stored_drop_subset _)
      exact ⟨σ', hw⟩
    | false =>
      rw [hvoid] at hbody
      obtain ⟨σ', hw, -⟩ := block_written f.body 0 hbody hs nofun .empty nofun
      exact ⟨σ', hw⟩
  refine ⟨σ', hw.le, ?_, Block.Checks.mark body hw.checks⟩
  dsimp only
  rw [Block.temporaries, mentions_markBlock]
  exact hw.temporaries

/-- The functions of a module share one sequence of temporaries, and each keeps to the rules. -/
theorem Flattens.written (h : Flattens m items flat m')
    (hs : ∀ f ∈ functionsOf items, IsSource (Block.paths f.body)) :
    m ≤ m' ∧ (declaredTemporaries flat).Perm (temporariesBetween m m') ∧
      ∀ f ∈ functionsOf flat, ∃ σ', Block.Checks .empty f.body σ' := by
  induction h with
  | nil =>
    refine ⟨Nat.le_refl _, ?_, List.forall_mem_nil _⟩
    rw [temporariesBetween_self]
    exact List.Perm.refl _
  | function hf _ ih =>
    obtain ⟨hs₁, hs₂⟩ := List.forall_mem_cons.mp hs
    obtain ⟨σ', hw⟩ := written_flattenFunction hf hs₁
    obtain ⟨hle, hperm, hchecks⟩ := ih hs₂
    refine ⟨hw.le.trans hle, ?_, List.forall_mem_cons.mpr ⟨⟨σ', hw.checks⟩, hchecks⟩⟩
    rw [← temporariesBetween_append hw.le hle]
    exact hw.temporaries.append hperm
  | other hi _ ih =>
    rw [functionsOf, List.filterMap_cons_none hi] at hs
    rw [declaredTemporaries, functionsOf, List.filterMap_cons_none hi]
    exact ih hs

/-- **Temporaries of a module that is accepted are sound.** Every function of the flat module uses
them soundly, where the variables that the source names are no temporaries. Neither the shape of its
expressions nor the conditions that decide a path matter. -/
theorem temporariesSound_normalize (h : normalize items = .ok flat)
    (hs : ∀ f ∈ functionsOf items, IsSource (Block.paths f.body)) :
    ∀ f ∈ functionsOf flat, TemporariesSound flat f := by
  obtain ⟨n, hflattens⟩ := exists_flattens_of_normalize h
  obtain ⟨-, hperm, hchecks⟩ := hflattens.written hs
  have hnodup := hperm.nodup_iff.mpr (nodup_temporariesBetween 0 n)
  intro f hf
  obtain ⟨σ', hc⟩ := hchecks f hf
  have hscoped := Block.Checks.scoped f.body hc (Set.Subset.refl _)
  have hdeclared : ∀ name ∈ Block.temporaries f.body, name ∈ declaredTemporaries flat :=
    fun name hname => List.mem_flatMap.mpr ⟨f, hf, hname⟩
  have hfresh : Scope.empty.Fresh (Block.temporaries f.body) :=
    ⟨(List.nodup_flatMap.mp hnodup).1 f hf, fun _ _ => Set.notMem_empty _⟩
  refine ⟨isPlain_normalize h f hf, fun path hpath name hname => ?_, hscoped, fun es flow hes => ?_⟩
  · rcases Block.Scoped.paths f.body hscoped path hpath name hname with hnone | hname
    · exact hnone.elim
    · exact List.count_eq_one_of_mem hnodup (hdeclared name hname)
  · exact (Block.Checks.respects f.body hc hfresh [] Scope.holds_empty es flow hes).1

end ControlFlow

namespace Compilation

/-- The variables of a text are no temporaries, before and after lowering. -/
theorem isSource_of_parse? {source : Source} {buffer : Token.Buffer} {items : List Item}
    (hparse : source.parse? = some (buffer, items)) :
    ∀ f ∈ functionsOf (ShortCircuit.lowerItems items).1,
      ControlFlow.IsSource (Block.paths f.body) := by
  intro f' hf' path hpath
  have hmap := map_functionsOf_eq (ShortCircuit.keeps_lowerItems items)
  have hmem := List.mem_map_of_mem (f := fun f => (f.name, Block.mentions f.body)) hf'
  rw [hmap] at hmem
  obtain ⟨f, hf, heq⟩ := List.mem_map.mp hmem
  obtain ⟨m, hm, rfl⟩ := List.mem_map.mp (Block.paths_subset f'.body hpath)
  rw [← (Prod.mk.inj heq).2] at hm
  exact temporary?_of_parse? hparse f hf m hm

/-- A conditional in the condition of a loop, and one that is an argument after a variable. A block
of the latter ends with another conditional, which may return. -/
def nestedConditionals : Source :=
  ⟨"main", "fn f() \x7b while if a \x7b g() \x7d else \x7b a \x7d \x7b b = h(c, if a \x7b " ++
    "if b \x7b c \x7d else \x7b return \x7d \x7d else \x7b d \x7d) \x7d \x7d"⟩

theorem temporariesSound_nestedConditionals :
    ∃ buffer items flat, nestedConditionals.parse? = some (buffer, items) ∧
      ControlFlow.normalize (ShortCircuit.lowerItems items).1 = .ok flat ∧
      declaredTemporaries flat = ["$2", "$0", "$1"] ∧
      ∀ f ∈ functionsOf flat, TemporariesSound flat f := by
  have hnames : (nestedConditionals.parse?.bind fun p =>
      (ControlFlow.normalize (ShortCircuit.lowerItems p.2).1).toOption.map declaredTemporaries) =
        some ["$2", "$0", "$1"] := by
    decide +kernel
  obtain ⟨p, hparse, hflat⟩ := Option.bind_eq_some_iff.mp hnames
  obtain ⟨flat, hflat, hnames⟩ := Option.map_eq_some_iff.mp hflat
  cases hrun : ControlFlow.normalize (ShortCircuit.lowerItems p.2).1 with
  | error fault =>
    rw [hrun] at hflat
    cases hflat
  | ok flat' =>
    rw [hrun] at hflat
    cases hflat
    exact ⟨p.1, p.2, flat, hparse, hrun, hnames,
      ControlFlow.temporariesSound_normalize hrun (isSource_of_parse? hparse)⟩

end Compilation

end FrontEnd
