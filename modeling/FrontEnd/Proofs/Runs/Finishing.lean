import FrontEnd.Proofs.Runs.Order

/-!
# The order of finishing

A module is finished after all modules that it refers to. So modules that have all been
finished do not refer to one another in a circle.
-/

namespace FrontEnd.Compilation

open Registry
open Relation (TransGen)

variable {load : ModulePath → Option Source} {known known' : ModulePath → Prop}
  {order order' : List ModulePath}

/-- Every module of a list comes after all that it refers to, apart from what is known anyhow. -/
def Settled (load : ModulePath → Option Source) (known : ModulePath → Prop) :
    List ModulePath → Prop
  | [] => True
  | m :: rest => (∀ b, Refers load m b → known b) ∧ Settled load (fun b => known b ∨ b = m) rest

namespace Settled

theorem mono (h : Settled load known order) (hknown : ∀ m, known m → known' m) :
    Settled load known' order := by
  induction order generalizing known known' with
  | nil => trivial
  | cons m rest ih =>
    refine ⟨fun b hb => hknown b (h.1 b hb), ih h.2 fun b hb => ?_⟩
    exact hb.imp (hknown b) id

theorem append (h : Settled load known order)
    (h' : Settled load (fun m => known m ∨ m ∈ order) order') :
    Settled load known (order ++ order') := by
  induction order generalizing known with
  | nil => exact h'.mono fun m hm => hm.resolve_right List.not_mem_nil
  | cons m rest ih =>
    refine ⟨h.1, ih h.2 (h'.mono fun b hb => ?_)⟩
    rw [or_assoc, ← List.mem_cons]
    exact hb

theorem mem_of_refers {before after : List ModulePath} {m b : ModulePath}
    (h : Settled load known (before ++ m :: after)) (hb : Refers load m b) :
    known b ∨ b ∈ before := by
  induction before generalizing known with
  | nil => exact .inl (h.1 b hb)
  | cons a rest ih =>
    have hrest := ih h.2
    rwa [or_assoc, ← List.mem_cons] at hrest

/-- In a list where all that a module refers to stands before it there are no circles. -/
theorem acyclic (h : Settled load (fun _ => False) order) {m : ModulePath} (hm : m ∈ order) :
    ¬TransGen (Refers load) m m := by
  -- Along a reference the place in the list goes down, so it cannot come back.
  have hstep : ∀ a b, a ∈ order → Refers load a b →
      b ∈ order ∧ order.idxOf b < order.idxOf a := by
    intro a b ha hb
    obtain ⟨before, after, rfl, hnot⟩ := List.eq_append_cons_of_mem ha
    have hbefore := (h.mem_of_refers hb).resolve_left id
    refine ⟨List.mem_append_left _ hbefore, ?_⟩
    rw [List.idxOf_append_of_mem hbefore, List.idxOf_append_of_notMem hnot]
    have hlt := List.idxOf_lt_length_of_mem hbefore
    omega
  have hrun : ∀ b, TransGen (Refers load) m b → b ∈ order ∧ order.idxOf b < order.idxOf m := by
    intro b hrefers
    induction hrefers with
    | single hb => exact hstep m _ hm hb
    | tail _ hb ih =>
      obtain ⟨hmem, hlt⟩ := hstep _ _ ih.1 hb
      exact ⟨hmem, Nat.lt_trans hlt ih.2⟩
  exact fun hcircle => Nat.lt_irrefl _ (hrun m hcircle).2

end Settled

variable {sources : Sources} {r r' r₁ : Registry} {path : ModulePath} {f : File}
  {wanted : List ModulePath}

/-- A module is finished if it was before or has been compiled. -/
theorem Completes.hasFinished_iff (hcompletes : Completes sources wanted r r' order)
    (other : ModulePath) : r'.HasFinished other ↔ r.HasFinished other ∨ other ∈ order := by
  induction hcompletes with
  | nil => exact (or_iff_left List.not_mem_nil).symm
  | finished _ _ _ ih => exact ih
  | compiled hoffers _ hasked _ _ _ ihasked ihothers =>
    rw [ihothers, hoffers.hasFinished_finish hasked.grows, ihasked, hoffers.hasFinished_start,
      List.mem_append, List.mem_cons, or_assoc, or_assoc]

theorem Offers.not_hasFinished (hoffers : Offers sources path r f r₁) (hr : r.Consistent)
    {r₂ : Registry} (hgrows : (r₁.start path).Grows r₂) : ¬r₂.HasFinished path := by
  have hconsistent := hgrows.consistent (hoffers.consistent_start hr)
  rintro ⟨m, hm⟩
  rw [hconsistent.module?_eq_none (hoffers.search?_of_grows hgrows) nofun] at hm
  cases hm

/-- No module is compiled twice, and none that was finished before. -/
theorem Completes.nodup (hcompletes : Completes sources wanted r r' order) (hr : r.Consistent) :
    order.Nodup ∧ ∀ m ∈ order, ¬r.HasFinished m := by
  induction hcompletes with
  | nil => exact ⟨.nil, List.forall_mem_nil _⟩
  | finished _ _ _ ih => exact ih hr
  | @compiled path _ inner order r _ r₂ _ _ buffer _ m hoffers _ hasked _ _ _ ihasked ihothers =>
    obtain ⟨hinner, hnew⟩ := ihasked (hoffers.consistent_start hr)
    obtain ⟨horder, hlater⟩ := ihothers (hoffers.consistent_finish hr hasked.grows buffer m)
    have hold : ∀ other, r.HasFinished other → r₂.HasFinished other := fun other h =>
      (hasked.hasFinished_iff other).mpr (.inl ((hoffers.hasFinished_start other).mpr h))
    have hcompiled : ∀ other ∈ inner, r₂.HasFinished other := fun other h =>
      (hasked.hasFinished_iff other).mpr (.inr h)
    have hpath := hoffers.not_hasFinished hr hasked.grows
    have hrest : ∀ other ∈ order, ¬r₂.HasFinished other ∧ other ≠ path := fun other h =>
      not_or.mp ((hoffers.hasFinished_finish hasked.grows buffer m other).not.mp (hlater other h))
    refine ⟨List.nodup_append.mpr ⟨hinner, List.nodup_cons.mpr ⟨?_, horder⟩, ?_⟩, ?_⟩
    · exact fun h => (hrest path h).2 rfl
    · rintro a ha b hb rfl
      rcases List.mem_cons.mp hb with rfl | hb
      · exact hpath (hcompiled a ha)
      · exact (hrest a hb).1 (hcompiled a ha)
    · intro other hother
      rcases List.mem_append.mp hother with h | h
      · exact fun hr => hnew other h ((hoffers.hasFinished_start other).mpr hr)
      rcases List.mem_cons.mp h with rfl | h
      · exact fun hr => hpath (hold other hr)
      · exact fun hr => (hrest other h).1 (hold other hr)

/-- Modules are finished after all that they refer to. -/
theorem Completes.settled (hcompletes : Completes sources wanted r r' order)
    (hr : r.Consistent) (hloaded : r.Loaded sources) :
    Settled sources.load r.HasFinished order := by
  induction hcompletes with
  | nil => trivial
  | finished _ _ _ ih => exact ih hr hloaded
  | @compiled path _ inner order r _ r₂ _ _ _ _ _ hoffers hparsed hasked _ _ _ ihasked ihothers =>
    have hstart := hoffers.consistent_start hr
    have hfinish := hoffers.consistent_finish hr hasked.grows
    have hloaded₁ := hloaded.start hoffers
    have htargets := targetsOf_eq (hoffers.load_eq hloaded) hparsed
    have hknown : ∀ m, r₂.HasFinished m → r.HasFinished m ∨ m ∈ inner := fun m hm =>
      ((hasked.hasFinished_iff m).mp hm).imp_left (hoffers.hasFinished_start m).mp
    have hearlier := (ihasked hstart hloaded₁).mono fun m => (hoffers.hasFinished_start m).mp
    refine hearlier.append ⟨?_, ?_⟩
    · intro b hb
      rw [Refers, htargets] at hb
      exact hknown b (hasked.hasFinished hstart b hb)
    · refine (ihothers (hfinish _ _) ((hasked.loaded hloaded₁).finish _ _ _)).mono fun m hm => ?_
      exact ((hoffers.hasFinished_finish hasked.grows _ _ m).mp hm).imp_left (hknown m)

end FrontEnd.Compilation
