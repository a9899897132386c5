import FrontEnd.Proofs.ControlFlow.Functions

/-!
# Flattening the items of a module

One count of temporaries serves all functions of a module: each starts with the number
that the functions before it have left.
-/

namespace FrontEnd.ControlFlow

open Emit

/-- Items with flat functions, from one number of temporaries to another. -/
inductive Flattens : Nat → List Item → List Item → Nat → Prop
  | nil {m : Nat} : Flattens m [] [] m
  | function {m m₁ m' : Nat} {f g : Function} {pre : Block} {rest rest' : List Item}
    (h : (flattenFunction f).run m = ⟨.ok g, pre, m₁⟩) (others : Flattens m₁ rest rest' m') :
    Flattens m (.function f :: rest) (.function g :: rest') m'
  | other {m m' : Nat} {i : Item} {rest rest' : List Item} (h : i.function? = none)
    (others : Flattens m rest rest' m') : Flattens m (i :: rest) (i :: rest') m'

variable {items flat : List Item} {m m' : Nat}

theorem run_flattenItems_eq_ok {pre : Block}
    (h : (flattenItems items).run m = ⟨.ok flat, pre, m'⟩) : Flattens m items flat m' := by
  induction items generalizing m flat pre with
  | nil =>
    cases h
    exact .nil
  | cons i rest ih =>
    cases i with
    | function f =>
      rw [flattenItems] at h
      obtain ⟨g, first, m₁, more, hf, hrest, -⟩ := run_bind_eq_ok h
      obtain ⟨rest', second, m₂, last, hrest, hpure, -⟩ := run_bind_eq_ok hrest
      cases hpure
      exact .function hf (ih hrest)
    | global | imports | submodule =>
      obtain ⟨rest', first, m₁, more, hrest, hpure, -⟩ := run_bind_eq_ok h
      cases hpure
      exact .other rfl (ih hrest)

/-- A module that is accepted is flattened from its first item on. -/
theorem exists_flattens_of_normalize (h : normalize items = .ok flat) :
    ∃ n, Flattens 0 items flat n := by
  rcases hr : (flattenItems items).run 0 with ⟨result, pre, n⟩
  change ((flattenItems items).run 0).result = _ at h
  rw [hr] at h
  cases h
  exact ⟨n, run_flattenItems_eq_ok hr⟩

theorem Flattens.isPlain (h : Flattens m items flat m') :
    ∀ f ∈ functionsOf flat, Block.IsPlain f.body := by
  induction h with
  | nil => exact List.forall_mem_nil _
  | function hf _ ih => exact List.forall_mem_cons.mpr ⟨isPlain_flattenFunction hf, ih⟩
  | other hi _ ih =>
    rw [functionsOf, List.filterMap_cons_none hi]
    exact ih

/-- No expression of a module that is accepted holds a conditional. -/
theorem isPlain_normalize (h : normalize items = .ok flat) :
    ∀ f ∈ functionsOf flat, Block.IsPlain f.body := by
  obtain ⟨n, hflattens⟩ := exists_flattens_of_normalize h
  exact hflattens.isPlain

end FrontEnd.ControlFlow
