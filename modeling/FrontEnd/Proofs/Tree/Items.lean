import FrontEnd.Tree.Item
import Mathlib.Data.List.Forall2

/-!
# Items with other bodies

The passes over a module leave its items in their order. What they change of an item is
the body of a function, and there some view of the body stays the same.
-/

namespace FrontEnd

/-- At most the body of a function is changed, and a view of that stays. -/
inductive Item.Keeps {α : Type} (view : Block → α) : Item → Item → Prop
  | function (f : Function) {body : Block} (h : view body = view f.body) :
    Keeps view (.function f) (.function { f with body })
  | other {i : Item} (h : i.function? = none) : Keeps view i i

namespace Item.Keeps

variable {α β : Type} {view : Block → α} {view' : Block → β} {i i' i'' : Item}

theorem mono (h : i.Keeps view i') (hview : ∀ b b', view b = view b' → view' b = view' b') :
    i.Keeps view' i' := by
  cases h with
  | function f h => exact .function f (hview _ _ h)
  | other h => exact .other h

theorem trans (h : i.Keeps view i') (h' : i'.Keeps view i'') : i.Keeps view i'' := by
  cases h with
  | function f h =>
    cases h' with
    | function _ h' => exact .function f (h'.trans h)
    | other h' => cases h'
  | other h => exact h'

end Item.Keeps

section

variable {α β : Type} {view : Block → α} {view' : Block → β} {items items' items'' : List Item}

/-- What stands on the right of a relation between lists has a partner on the left. -/
theorem exists_mem_of_forall₂ {R : α → β → Prop} {xs : List α} {ys : List β}
    (h : List.Forall₂ R xs ys) {y : β} (hy : y ∈ ys) : ∃ x ∈ xs, R x y := by
  induction h with
  | nil => cases hy
  | cons hxy _ ih =>
    rcases List.mem_cons.mp hy with rfl | hrest
    · exact ⟨_, List.mem_cons_self, hxy⟩
    · obtain ⟨x, hx, hR⟩ := ih hrest
      exact ⟨x, List.mem_cons_of_mem _ hx, hR⟩

theorem keeps_mono (h : List.Forall₂ (Item.Keeps view) items items')
    (hview : ∀ b b', view b = view b' → view' b = view' b') :
    List.Forall₂ (Item.Keeps view') items items' :=
  h.imp fun _ _ hi => hi.mono hview

/-- Relations between lists compose as those between their members do. -/
theorem forall₂_compose {γ : Type} {R : α → β → Prop} {S : β → γ → Prop} {T : α → γ → Prop}
    (hcompose : ∀ x y z, R x y → S y z → T x z) {xs : List α} {ys : List β} {zs : List γ}
    (h : List.Forall₂ R xs ys) (h' : List.Forall₂ S ys zs) : List.Forall₂ T xs zs := by
  induction h generalizing zs with
  | nil =>
    cases h'
    exact .nil
  | cons hxy _ ih =>
    cases h' with
    | cons hyz hrest => exact .cons (hcompose _ _ _ hxy hyz) (ih hrest)

theorem keeps_trans (h : List.Forall₂ (Item.Keeps view) items items')
    (h' : List.Forall₂ (Item.Keeps view) items' items'') :
    List.Forall₂ (Item.Keeps view) items items'' :=
  forall₂_compose (fun _ _ _ => .trans) h h'

/-- The functions differ in their bodies at most. -/
theorem forall₂_functionsOf_of_keeps (h : List.Forall₂ (Item.Keeps view) items items') :
    List.Forall₂ (fun f f' => (∃ body, f' = { f with body }) ∧ view f'.body = view f.body)
      (functionsOf items) (functionsOf items') := by
  induction h with
  | nil => exact .nil
  | cons hi _ ih =>
    cases hi with
    | function f hview => exact .cons ⟨⟨_, rfl⟩, hview⟩ ih
    | other hnone =>
      rw [functionsOf, functionsOf, List.filterMap_cons_none hnone, List.filterMap_cons_none hnone]
      exact ih

end

end FrontEnd
