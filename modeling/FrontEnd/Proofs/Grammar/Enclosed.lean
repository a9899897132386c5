import FrontEnd.Proofs.Grammar.Forgetting

/-!
# Expressions in parentheses

An expression in parentheses is read as it would be read alone, on top of what has been read
before: the parenthesis keeps its operators apart from those that are pending outside.
-/

namespace FrontEnd.Grammar

open Token (Kind Mark Keyword Shape)

/-- What had been read before an expression. No operator outside is completed inside, as a
parenthesis stands between them or nothing is pending. -/
structure Frame where
  output : List Node
  pending : List Pending
  closed : ∀ o i rest, pending ≠ .op o i :: rest

namespace Frame

/-- Nothing had been read before. -/
def empty : Frame := ⟨[], [], nofun⟩

/-- An operator and its first operand, with a parenthesis around the second one. -/
def operand (n : Node) (o : Operator) (token paren : Nat) : Frame :=
  ⟨[n], [.group paren, .op o token], nofun⟩

end Frame

namespace Progress

variable {p p' q : Progress} {f : Frame} {output output' : List Node}
  {pending pending' : List Pending}

/-- The progress on top of what had been read before. -/
def onto (p : Progress) (f : Frame) : Progress :=
  ⟨p.output ++ f.output, p.pending ++ f.pending, p.wantsOperand, p.justOpened⟩

@[simp]
theorem wantsOperand_onto (p : Progress) (f : Frame) :
    (p.onto f).wantsOperand = p.wantsOperand := rfl

@[simp]
theorem justOpened_onto (p : Progress) (f : Frame) : (p.onto f).justOpened = p.justOpened := rfl

theorem onto_empty (p : Progress) : p.onto .empty = p := by
  simp [onto, Frame.empty]

theorem isOpen_onto (f : Frame) (h : p.isOpen = true) : (p.onto f).isOpen = true := by
  obtain ⟨output, pending, wantsOperand, justOpened⟩ := p
  cases output <;> cases pending <;> simp_all [isOpen, isStarted, onto]

theorem operand_onto {n : Node} (h : p.operand n = .ok p') (f : Frame) :
    (p.onto f).operand n = .ok (p'.onto f) := by
  unfold operand at h ⊢
  rw [wantsOperand_onto]
  split at h
  · next hwants =>
    rw [if_pos hwants]
    cases h
    rfl
  · cases h

theorem opening_onto {o : Pending} {justOpened : Bool} (h : p.opening o justOpened = .ok p')
    (f : Frame) : (p.onto f).opening o justOpened = .ok (p'.onto f) := by
  unfold opening at h ⊢
  rw [wantsOperand_onto]
  split at h
  · next hwants =>
    rw [if_pos hwants]
    cases h
    rfl
  · cases h

theorem flushFor_onto (incoming : Operator) (output : List Node) (pending : List Pending)
    (f : Frame) :
    flushFor incoming (output ++ f.output) (pending ++ f.pending) =
      (flushFor incoming output pending).map (· ++ f.output) (· ++ f.pending) := by
  induction pending generalizing output with
  | nil =>
    obtain ⟨below, pending, hclosed⟩ := f
    cases pending with
    | nil => rfl
    | cons o pending =>
      cases o with
      | op o i => exact absurd rfl (hclosed o i pending)
      | group paren => rfl
      | call token path paren commas => rfl
  | cons o pending ih =>
    cases o with
    | op operator token =>
      have hih := ih (.op token operator :: output)
      rw [List.cons_append, flushFor, flushFor]
      split
      · exact hih
      · rfl
    | group paren => rfl
    | call token path paren commas => rfl

theorem operator_onto {token : Nat} {o : Operator} (h : p.operator token o = .ok p') (f : Frame) :
    (p.onto f).operator token o = .ok (p'.onto f) := by
  unfold operator at h ⊢
  rw [wantsOperand_onto]
  dsimp only at h ⊢
  split at h
  · cases h
  · cases h
    simp only [onto, flushFor_onto, Prod.map_fst, Prod.map_snd, List.cons_append]

/-- A parenthesis that is found is found before what had been pending. -/
theorem flushGroup_onto {o : Pending} (h : flushGroup output pending = (output', o :: pending'))
    (f : Frame) :
    flushGroup (output ++ f.output) (pending ++ f.pending) =
      (output' ++ f.output, o :: (pending' ++ f.pending)) := by
  induction pending generalizing output with
  | nil => cases h
  | cons o' pending ih =>
    cases o' with
    | op operator token => exact ih h
    | group paren =>
      cases h
      rfl
    | call token path paren commas =>
      cases h
      rfl

theorem comma_onto (h : p.comma = .ok p') (f : Frame) :
    (p.onto f).comma = .ok (p'.onto f) := by
  unfold comma at h ⊢
  rw [wantsOperand_onto]
  split at h
  · cases h
  · next hwants =>
    rw [if_neg hwants]
    split at h
    · next hflush =>
      cases h
      simp only [onto, flushGroup_onto hflush f, List.cons_append]
    · cases h

theorem close_onto (h : p.close = .ok p') (f : Frame) :
    (p.onto f).close = .ok (p'.onto f) := by
  unfold close at h ⊢
  rw [wantsOperand_onto, justOpened_onto]
  split at h
  · cases h
  · next hwants =>
    rw [if_neg hwants]
    split at h
    · next hflush =>
      cases h
      simp only [onto, flushGroup_onto hflush f]
    · next hflush =>
      cases h
      simp only [onto, flushGroup_onto hflush f, List.cons_append]
    · cases h

/-- What can be done with a token alone can be done with it on top of something else. -/
theorem feed_onto {index : Nat} {shape : Shape} (h : p.feed index shape = .ok p') (f : Frame) :
    (p.onto f).feed index shape = .ok (p'.onto f) := by
  unfold feed at h ⊢
  split at h
  · exact operand_onto h f
  · exact operand_onto h f
  · exact operand_onto h f
  · exact operand_onto h f
  · exact opening_onto h f
  · exact comma_onto h f
  · exact close_onto h f
  · split at h
    · exact operator_onto h f
    · cases h
  · cases h

/-- One progress is another one on top of what had been read before, but for the places of
tokens. -/
def Atop (f : Frame) (p q : Progress) : Prop := (p.onto f).withoutTokens = q.withoutTokens

namespace Atop

theorem wantsOperand (h : Atop f p q) : p.wantsOperand = q.wantsOperand := by
  unfold Atop at h
  rw [← wantsOperand_onto p f, ← wantsOperand_withoutTokens, h, wantsOperand_withoutTokens]

theorem isOpen (h : Atop f p q) (hp : p.isOpen = true) : q.isOpen = true := by
  rw [← isOpen_withoutTokens, ← h, isOpen_withoutTokens]
  exact isOpen_onto f hp

theorem feed (h : Atop f p q) {i : Nat} (j : Nat) {shape : Shape} (hp : p.feed i shape = .ok p') :
    ∃ q', q.feed j shape = .ok q' ∧ Atop f p' q' := by
  refine exists_of_map_eq ?_ (feed_onto hp f)
  rw [← feed_withoutTokens, h, feed_withoutTokens]

theorem operand (h : Atop f p q) {n n' : Node} (hn : n.withoutTokens = n'.withoutTokens)
    (hp : p.operand n = .ok p') : ∃ q', q.operand n' = .ok q' ∧ Atop f p' q' := by
  refine exists_of_map_eq ?_ (operand_onto hp f)
  rw [← operand_withoutTokens, h, hn, operand_withoutTokens]

theorem opening (h : Atop f p q) {o o' : Pending} (ho : o.withoutTokens = o'.withoutTokens)
    {justOpened : Bool} (hp : p.opening o justOpened = .ok p') :
    ∃ q', q.opening o' justOpened = .ok q' ∧ Atop f p' q' := by
  refine exists_of_map_eq ?_ (opening_onto hp f)
  rw [← opening_withoutTokens, h, ho, opening_withoutTokens]

theorem withoutTokens (h : Atop .empty p q) : p.withoutTokens = q.withoutTokens := by
  rwa [Atop, onto_empty] at h

end Atop

end Progress

end FrontEnd.Grammar
