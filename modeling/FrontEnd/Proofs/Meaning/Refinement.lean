import FrontEnd.Proofs.Meaning.Evaluation
import FrontEnd.Proofs.Tree.Parts
import Mathlib.Data.List.Forall2

/-!
# Runs that agree unless there is a fault

One run refines another if it does the same from every store from which the other meets
no fault. All that the evaluation of a program does to the runs of its parts respects
this, so parts can be replaced one at a time.
-/

namespace FrontEnd.Meaning

variable {α σ β γ : Type}

/-- Whether a run has ended with a fault. -/
def IsFault : EStateM.Result (Ending α) σ β → Prop
  | .error .fault _ => True
  | _ => False

@[simp]
theorem not_isFault_ok (a : β) (s : σ) :
    ¬ IsFault (.ok a s : EStateM.Result (Ending α) σ β) := id

@[simp]
theorem isFault_error {e : Ending α} {s : σ} :
    IsFault (.error e s : EStateM.Result (Ending α) σ β) ↔ e = .fault := by
  cases e <;> simp [IsFault]

instance (r : EStateM.Result (Ending α) σ β) : Decidable (IsFault r) := by
  unfold IsFault
  split <;> infer_instance

/-- The second run does what the first one does, from wherever that meets no fault. -/
def RefinedBy (x y : Run α σ β) : Prop := ∀ s, ¬ IsFault (x s) → y s = x s

namespace RefinedBy

theorem refl (x : Run α σ β) : RefinedBy x x := fun _ _ => rfl

theorem trans {x y z : Run α σ β} (h : RefinedBy x y) (k : RefinedBy y z) : RefinedBy x z := by
  intro s hs
  have hy := h s hs
  rw [← hy] at hs
  rw [k s hs, hy]

/-- A fault may become anything. -/
theorem of_fault (y : Run α σ β) : RefinedBy (throw .fault) y := fun _ h => absurd trivial h

theorem bind {x y : Run α σ β} {f g : β → Run α σ γ} (h : RefinedBy x y)
    (hfg : ∀ a, RefinedBy (f a) (g a)) : RefinedBy (x >>= f) (y >>= g) := by
  intro s hs
  rw [bind_apply] at hs
  rw [bind_apply, bind_apply]
  cases hx : x s with
  | ok a s' =>
    simp only [hx] at hs
    rw [h s (by simp [hx]), hx]
    exact hfg a s' hs
  | error e s' =>
    simp only [hx, isFault_error] at hs
    rw [h s (by simpa [hx] using hs), hx]

theorem map {x y : Run α σ β} (f : β → γ) (h : RefinedBy x y) : RefinedBy (f <$> x) (f <$> y) := by
  rw [← bind_pure_comp, ← bind_pure_comp]
  exact h.bind fun a => refl _

/-- Two ways to go on after the same choice. -/
theorem ite {p : Prop} [Decidable p] {x x' y y' : Run α σ β} (h : RefinedBy x y)
    (h' : RefinedBy x' y') : RefinedBy (if p then x else x') (if p then y else y') := by
  split
  · exact h
  · exact h'

theorem optional {e e' : Expr} (he : e.isEmpty = e'.isEmpty) {x y : Run α σ (Value α)}
    (h : e ≠ [] → RefinedBy x y) : RefinedBy (Meaning.optional e x) (Meaning.optional e' y) := by
  rw [Meaning.optional, Meaning.optional, ← he]
  split
  · exact refl _
  · next hne => exact (h fun h0 => hne (by rw [h0]; rfl)).map _

theorem probe {x y : Run α σ (Value α)} (h : RefinedBy x y) :
    RefinedBy (Meaning.probe x) (Meaning.probe y) := by
  intro s hs
  have hx : ¬ IsFault (x s) := by
    intro hf
    apply hs
    rw [Meaning.probe]
    revert hf
    rcases x s with ⟨v, s'⟩ | ⟨_ | _ | _ | _ | _ | _, s'⟩ <;> simp [IsFault]
  rw [Meaning.probe, Meaning.probe, h s hx]

/-- A probe leaves nothing behind. -/
theorem probe_bind (x : Run α σ (Value α)) (y : Run α σ β) :
    RefinedBy (Meaning.probe x >>= fun _ => y) y := by
  intro s hs
  have hp : Meaning.probe x s = .ok () s ∨ Meaning.probe x s = .error .fault s := by
    rw [Meaning.probe]
    split <;> simp
  rw [bind_apply] at hs ⊢
  rcases hp with hp | hp
  · rw [hp]
  · simp [hp] at hs

/-- What is found to be a boolean is that boolean. -/
theorem asBool_bind (x : Run α σ (Value α)) :
    RefinedBy (x >>= fun v => asBool v >>= fun b => pure (.bool b)) x := by
  intro s hs
  rw [bind_apply] at hs ⊢
  rcases hx : x s with ⟨⟨b⟩ | ⟨a⟩, s'⟩ | ⟨e, s'⟩
  · rfl
  · rw [hx] at hs
    exact absurd trivial hs
  · rfl

theorem logical (o : Operator) {left left' right right' : Run α σ (Value α)}
    (hl : RefinedBy left left') (hr : RefinedBy right right') :
    RefinedBy (Meaning.logical o left right) (Meaning.logical o left' right') :=
  hl.bind fun v => (refl (asBool v)).bind fun _ => ite (refl _) hr

theorem logicalChecked (o : Operator) {left left' right right' : Run α σ (Value α)}
    (hl : RefinedBy left left') (hr : RefinedBy right right') :
    RefinedBy (Meaning.logicalChecked o left right) (Meaning.logicalChecked o left' right') :=
  hl.bind fun v => (refl (asBool v)).bind fun _ =>
    ite (hr.probe.bind fun _ => refl _) (hr.bind fun _ => refl _)

/-- What is checked may be left unchecked. -/
theorem unchecked (o : Operator) (left right : Run α σ (Value α)) :
    RefinedBy (Meaning.logicalChecked o left right) (Meaning.logical o left right) :=
  (refl left).bind fun v => (refl (asBool v)).bind fun _ => ite (probe_bind _ _) (asBool_bind _)

theorem endTurn {x y : Run α σ Bool} (h : RefinedBy x y) :
    RefinedBy (Meaning.endTurn x) (Meaning.endTurn y) := by
  intro s hs
  have hx : ¬ IsFault (x s) := by
    intro hf
    apply hs
    rw [Meaning.endTurn]
    rcases hx : x s with ⟨b, s'⟩ | ⟨e, s'⟩
    · simp [hx] at hf
    · rw [hx, isFault_error] at hf
      simp [hf]
  rw [Meaning.endTurn, Meaning.endTurn, h s hx]

theorem turn {condition condition' body body' : Run α σ (Value α)}
    (hc : RefinedBy condition condition') (hb : RefinedBy body body') :
    RefinedBy (Meaning.turn condition body) (Meaning.turn condition' body') :=
  endTurn (hc.bind fun v => (refl (asBool v)).bind fun _ =>
    ite ((hb.map _).bind fun _ => refl _) (refl _))

theorem loop (turns : Nat) {condition condition' body body' : Run α σ (Value α)}
    (hc : RefinedBy condition condition') (hb : RefinedBy body body') :
    RefinedBy (Meaning.loop turns condition body) (Meaning.loop turns condition' body') := by
  induction turns with
  | zero => exact refl _
  | succ turns ih => exact (hc.turn hb).bind fun again => ite ih (refl _)

theorem inOrder {xs ys : List (Run α σ (Value α))} (h : List.Forall₂ RefinedBy xs ys) :
    RefinedBy (Meaning.inOrder xs) (Meaning.inOrder ys) := by
  induction h with
  | nil => exact refl _
  | cons hx _ ih => exact hx.bind fun v => ih.bind fun vs => refl _

end RefinedBy

end FrontEnd.Meaning
