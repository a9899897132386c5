import FrontEnd.Proofs.References.Flattening
import FrontEnd.Proofs.References.Items
import FrontEnd.Proofs.References.Lowering
import FrontEnd.Proofs.WellFormed.Flattening
import FrontEnd.Proofs.WellFormed.Items
import FrontEnd.Proofs.WellFormed.Lowering

/-!
# Modules are well formed

What is read from a text is well formed, and the passes over a module keep it so. The main
statement is that every expression is complete at every stage: run on an empty stack it
never takes more values than there are, and leaves one. A declaration may do without a
value, but not where one is read for it: such a value is not empty at any stage.
-/

namespace FrontEnd.Compilation

variable {source : Source} {buffer : Token.Buffer} {items flat : List Item}

/-- The items of a text refer to tokens of its buffer, and all their expressions are complete. -/
theorem wellFormed_of_parse? (h : source.parse? = some (buffer, items)) :
    ∀ i ∈ items, i.WellFormed (· < buffer.tokens.length) := by
  obtain ⟨hscan, hread⟩ := Source.parse?_eq_some.mp h
  have hitems := Token.Buffer.wellFormed_items hscan
  rwa [hread] at hitems

/-- Items with flat control flow are as well formed as those that they were made of. -/
theorem wellFormed_of_normalize {T : Nat → Prop} (h : ControlFlow.normalize items = .ok flat)
    (hitems : ∀ i ∈ items, i.WellFormed T) : ∀ i ∈ flat, i.WellFormed T := by
  have hflat := ControlFlow.wellFormed_normalize hitems
  rwa [h] at hflat

/-- What functions declare has a value, as its mention says, exactly if one is read behind its
colon. Temporaries do not count. -/
def ValuesAsRead (tokens : List Token) (items : List Item) : Prop :=
  ∀ f ∈ functionsOf items, ∀ m ∈ Block.sourceMentions f.body, Grammar.ValueSpelled tokens m

theorem ValuesAsRead.of_keeps {tokens : List Token} {items' : List Item}
    (h : List.Forall₂ (Item.Keeps Block.sourceMentions) items items')
    (hitems : ValuesAsRead tokens items) : ValuesAsRead tokens items' := by
  intro f' hf' m hm
  obtain ⟨f, hf, -, hmentions⟩ := exists_mem_of_forall₂ (forall₂_functionsOf_of_keeps h) hf'
  rw [hmentions] at hm
  exact hitems f hf m hm

/-- A value that is read behind `=` is not empty at any stage, and where none is read there is none:
neither in the items of the text, nor after lowering, nor after control flow has been flattened. -/
theorem valuesAsRead_of_parse? (h : source.parse? = some (buffer, items)) :
    ValuesAsRead buffer.tokens items ∧
    ValuesAsRead buffer.tokens (ShortCircuit.lowerItems items).1 ∧
    ∀ rewritten flat, rewritten = items ∨ rewritten = (ShortCircuit.lowerItems items).1 →
      ControlFlow.normalize rewritten = .ok flat → ValuesAsRead buffer.tokens flat := by
  obtain ⟨-, hread⟩ := Source.parse?_eq_some.mp h
  have hitems : ValuesAsRead buffer.tokens items := fun f hf m hm =>
    (Grammar.spelled_of_mem_functionsOf hread hf m (List.mem_of_mem_filter hm)).2
  have hlowered : ValuesAsRead buffer.tokens (ShortCircuit.lowerItems items).1 :=
    hitems.of_keeps <| keeps_mono (ShortCircuit.keeps_lowerItems items) fun _ _ hb =>
      congrArg withoutTemporaries hb
  refine ⟨hitems, hlowered, ?_⟩
  rintro rewritten flat (rfl | rfl) hflat
  · exact hitems.of_keeps (ControlFlow.keeps_normalize hflat)
  · exact hlowered.of_keeps (ControlFlow.keeps_normalize hflat)

/-- All expressions of a module are complete, at every depth: those of its text, those after
lowering, and those after control flow has been flattened, before lowering or after it. Where a
declaration has no value it holds none, and by `valuesAsRead_of_parse?` none was read for it. -/
theorem isComplete_exprs (h : source.parse? = some (buffer, items)) :
    (∀ i ∈ items, ∀ e ∈ i.exprs, e.IsComplete) ∧
    (∀ i ∈ (ShortCircuit.lowerItems items).1, ∀ e ∈ i.exprs, e.IsComplete) ∧
    ∀ rewritten flat, rewritten = items ∨ rewritten = (ShortCircuit.lowerItems items).1 →
      ControlFlow.normalize rewritten = .ok flat → ∀ i ∈ flat, ∀ e ∈ i.exprs, e.IsComplete := by
  have hitems := wellFormed_of_parse? h
  have hlowered := ShortCircuit.wellFormed_lowerItems hitems
  refine ⟨fun i hi => (hitems i hi).exprs, fun i hi => (hlowered i hi).exprs, ?_⟩
  rintro rewritten flat (rfl | rfl) hflat i hi
  · exact (wellFormed_of_normalize hflat hitems i hi).exprs
  · exact (wellFormed_of_normalize hflat hlowered i hi).exprs

/-- A compound assignment of a conditional, whose condition and one of whose values hold operators
with effects, behind an operand that is spilled; a loop with a conditional as its condition; a
return without a value. -/
def spilledOperands : Source :=
  ⟨"main", "fn f(a: i32): i32 \x7b a += g(a) * if a > 1 && h(a) \x7b -a \x7d else \x7b 2 \x7d\n" ++
    "while if a < 3 || h(a) \x7b true \x7d else \x7b h(a) \x7d \x7b a -= 1 \x7d\n a \x7d\n" ++
    "fn g() \x7b return \x7d"⟩

/-- How many expressions the items of a text hold, before and after the passes. -/
def expressionCounts (s : Source) : Option (Nat × Nat × Nat) :=
  s.parse?.bind fun p =>
    let lowered := (ShortCircuit.lowerItems p.2).1
    (ControlFlow.normalize lowered).toOption.map fun flat =>
      ((p.2.flatMap Item.exprs).length, (lowered.flatMap Item.exprs).length,
        (flat.flatMap Item.exprs).length)

theorem isComplete_exprs_spilledOperands :
    ∃ buffer items flat, spilledOperands.parse? = some (buffer, items) ∧
      ControlFlow.normalize (ShortCircuit.lowerItems items).1 = .ok flat ∧
      expressionCounts spilledOperands = some (10, 16, 19) ∧
      (∀ i ∈ items, ∀ e ∈ i.exprs, e.IsComplete) ∧
      (∀ i ∈ (ShortCircuit.lowerItems items).1, ∀ e ∈ i.exprs, e.IsComplete) ∧
      ∀ i ∈ flat, ∀ e ∈ i.exprs, e.IsComplete := by
  have hcounts : expressionCounts spilledOperands = some (10, 16, 19) := by decide +kernel
  obtain ⟨⟨buffer, items⟩, hparse, hflat⟩ := Option.bind_eq_some_iff.mp hcounts
  obtain ⟨flat, hflat, -⟩ := Option.map_eq_some_iff.mp hflat
  cases hrun : ControlFlow.normalize (ShortCircuit.lowerItems items).1 with
  | error fault =>
    rw [hrun] at hflat
    cases hflat
  | ok flat' =>
    rw [hrun] at hflat
    cases hflat
    obtain ⟨hitems, hlowered, hflattened⟩ := isComplete_exprs hparse
    exact ⟨buffer, items, flat, hparse, hrun, hcounts, hitems, hlowered,
      hflattened _ flat (.inr rfl) hrun⟩

end FrontEnd.Compilation
