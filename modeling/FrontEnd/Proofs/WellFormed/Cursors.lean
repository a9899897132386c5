import FrontEnd.Proofs.References.Spelling
import FrontEnd.Proofs.Tree.WellFormed

/-!
# Reading inside a file

The token that ends a file stops every reader: none moves past it, whatever may come
after it, and every fault is at a token up to there. What is read of an expression leaves
as many values as are still waited for.
-/

namespace FrontEnd

namespace Grammar

open Token (Kind Mark Keyword)

/-- A cursor stands in a list of tokens, not past the one at `last`, which ends the file. -/
structure Cursor.Within (tokens : List Token) (last : Nat) (c : Cursor) : Prop where
  inTokens : c.In tokens
  le : c.index ≤ last
  ends : ∃ t, tokens[last]? = some t ∧ t.kind = .endOfFile

/-- A cursor in the file, at or after another one. -/
structure Cursor.Reaches (tokens : List Token) (last : Nat) (c c' : Cursor) : Prop where
  within : c'.Within tokens last
  forward : c.index ≤ c'.index

/-- From a cursor a reader moves on inside the file. It gives a result of which `P` holds, or finds
fault with a token of the file. -/
def Yields {α : Type} (tokens : List Token) (last : Nat) (P : α → Prop) (x : Parse α) (c : Cursor) :
    Prop :=
  match x c with
  | .ok a c' => c.Reaches tokens last c' ∧ P a
  | .error fault c' => c.Reaches tokens last c' ∧ fault.token ≤ last

variable {α β : Type} {tokens : List Token} {last : Nat} {c c' c'' : Cursor}

/-- The next token is the one that is looked at before the cursor moves there. -/
theorem Cursor.current_next (c : Cursor) : c.next.current = c.peek 1 := by
  obtain ⟨index, t, _ | ⟨u, rest⟩⟩ := c <;> rfl

theorem Cursor.kind_next (c : Cursor) : c.next.kind = c.nextKind := by
  rw [kind, current_next, nextKind]

theorem Cursor.index_le_next (c : Cursor) : c.index ≤ c.next.index := by
  obtain ⟨index, t, _ | ⟨u, rest⟩⟩ := c
  · exact Nat.le_refl _
  · exact Nat.le_succ _

theorem Cursor.index_next_le (c : Cursor) : c.next.index ≤ c.index + 1 := by
  obtain ⟨index, t, _ | ⟨u, rest⟩⟩ := c
  · exact Nat.le_succ _
  · exact Nat.le_refl _

/-- A token of another kind does not end the file. -/
theorem Cursor.goesOn {kind : Kind} (h : c.kind = kind) (hkind : kind ≠ .endOfFile) :
    c.kind ≠ .endOfFile := by rwa [h]

namespace Cursor.Within

/-- Only the end of the file stands at the last place. -/
theorem index_lt (hc : c.Within tokens last) (h : c.kind ≠ .endOfFile) : c.index < last := by
  refine Nat.lt_of_le_of_ne hc.le fun heq => ?_
  obtain ⟨t, ht, hkind⟩ := hc.ends
  rw [← heq, hc.inTokens.current] at ht
  cases ht
  exact h hkind

theorem reaches (hc : c.Within tokens last) : c.Reaches tokens last c := ⟨hc, Nat.le_refl _⟩

theorem next (hc : c.Within tokens last) (h : c.kind ≠ .endOfFile) :
    c.Reaches tokens last c.next := by
  refine ⟨⟨hc.inTokens.next, ?_, hc.ends⟩, c.index_le_next⟩
  have hlt := hc.index_lt h
  have hle := c.index_next_le
  omega

theorem pastTerminators {index : Nat} {t : Token} {rest : List Token}
    (hc : Cursor.Within tokens last ⟨index, t, rest⟩) :
    Cursor.Reaches tokens last ⟨index, t, rest⟩ (Cursor.pastTerminators index t rest) := by
  induction rest generalizing index t with
  | nil => exact hc.reaches
  | cons u rest ih =>
    rw [Cursor.pastTerminators]
    split
    · next hkind =>
      have hnext := hc.next (by rw [Cursor.kind, hkind]; decide)
      obtain ⟨hwithin, hforward⟩ := ih hnext.within
      exact ⟨hwithin, Nat.le_trans hnext.forward hforward⟩
    · exact hc.reaches

theorem skipTerminators (hc : c.Within tokens last) : c.Reaches tokens last c.skipTerminators :=
  hc.pastTerminators

end Cursor.Within

theorem Cursor.Reaches.trans (h : c.Reaches tokens last c') (h' : c'.Reaches tokens last c'') :
    c.Reaches tokens last c'' :=
  ⟨h'.within, Nat.le_trans h.forward h'.forward⟩

namespace Yields

variable {P P' : α → Prop} {Q : β → Prop}

theorem pure {a : α} (hc : c.Within tokens last) (h : P a) : Yields tokens last P (Pure.pure a) c :=
  ⟨hc.reaches, h⟩

theorem throw {fault : Fault} (hc : c.Within tokens last) (h : fault.token ≤ last) :
    Yields tokens last P (MonadExcept.throw fault) c :=
  ⟨hc.reaches, h⟩

/-- What is read from a place that the cursor has moved to. -/
theorem of_reaches {x x' : Parse α} (hc : c.Reaches tokens last c') (hx : x c = x' c')
    (h : Yields tokens last P x' c') : Yields tokens last P x c := by
  unfold Yields at h ⊢
  rw [hx]
  cases hrun : x' c' with
  | ok a c'' =>
    rw [hrun] at h
    exact ⟨hc.trans h.1, h.2⟩
  | error fault c'' =>
    rw [hrun] at h
    exact ⟨hc.trans h.1, h.2⟩

theorem bind {x : Parse α} {f : α → Parse β} (h : Yields tokens last P x c)
    (hf : ∀ a c', c'.Within tokens last → P a → Yields tokens last Q (f a) c') :
    Yields tokens last Q (x >>= f) c := by
  have hrun : (x >>= f) c = match x c with
    | .ok a c' => f a c'
    | .error fault c' => .error fault c' := by
    change EStateM.bind x f c = _
    unfold EStateM.bind
    cases x c <;> rfl
  unfold Yields at h
  cases hx : x c with
  | ok a c' =>
    rw [hx] at h hrun
    exact of_reaches h.1 hrun (hf a c' h.1.within h.2)
  | error fault c' =>
    rw [hx] at h hrun
    unfold Yields
    rw [hrun]
    exact h

theorem get_bind {f : Cursor → Parse β} (h : Yields tokens last Q (f c) c) :
    Yields tokens last Q (get >>= f) c := h

/-- A check that may fail stands before what is read next. -/
theorem check {b : Prop} [Decidable b] {x : Parse Unit} {f : Unit → Parse β}
    (hx : Yields tokens last (fun _ => False) x c) (hf : ¬b → Yields tokens last Q (f ()) c) :
    Yields tokens last Q (if b then x >>= f else f ()) c := by
  split
  · exact hx.bind fun _ _ _ h => h.elim
  · next hb => exact hf hb

theorem weaken {x : Parse α} (h : Yields tokens last P x c) (hP : ∀ a, P a → P' a) :
    Yields tokens last P' x c := by
  unfold Yields at h ⊢
  cases hx : x c with
  | ok a c' =>
    rw [hx] at h
    exact ⟨h.1, hP a h.2⟩
  | error fault c' =>
    rw [hx] at h
    exact h

end Yields

/-- Moves past a token that does not end the file. -/
theorem yields_advance (hc : c.Within tokens last) (h : c.kind ≠ .endOfFile) :
    Yields tokens last (· = c.index) advance c := ⟨hc.next h, rfl⟩

theorem Yields.advance_bind {Q : β → Prop} {f : Nat → Parse β} (hc : c.Within tokens last)
    (h : c.kind ≠ .endOfFile) (hf : Yields tokens last Q (f c.index) c.next) :
    Yields tokens last Q (advance >>= f) c := of_reaches (hc.next h) rfl hf

theorem Yields.skip_bind {Q : β → Prop} {f : Unit → Parse β} (hc : c.Within tokens last)
    (h : c.kind ≠ .endOfFile) (hf : Yields tokens last Q (f ()) c.next) :
    Yields tokens last Q (discard advance >>= f) c := of_reaches (hc.next h) rfl hf

theorem yields_discard {P : α → Prop} {x : Parse α} (h : Yields tokens last P x c) :
    Yields tokens last (fun _ => True) (discard x) c :=
  h.bind fun _ _ hc _ => Yields.pure hc trivial

theorem yields_skipTerminators (hc : c.Within tokens last) :
    Yields tokens last (fun _ => True) skipTerminators c := ⟨hc.skipTerminators, trivial⟩

theorem token_complaint (e : Complaint) (c : Cursor) : (e.fault c).token = c.index := by
  cases e <;> rfl

theorem yields_failUnexpected {P : α → Prop} (hc : c.Within tokens last) :
    Yields tokens last P failUnexpected c :=
  Yields.get_bind (Yields.throw hc hc.le)

theorem yields_failExpected {P : α → Prop} (hc : c.Within tokens last) (detail : String) :
    Yields tokens last P (failExpected detail) c :=
  Yields.get_bind (Yields.throw hc hc.le)

theorem yields_expect (hc : c.Within tokens last) (kind : Kind) (hkind : kind ≠ .endOfFile) :
    Yields tokens last (fun _ => True) (expect kind) c := by
  refine Yields.get_bind ?_
  split
  · next h => exact (yields_advance hc (Cursor.goesOn h hkind)).weaken fun _ _ => trivial
  · exact Yields.throw hc hc.le

theorem kind_of_identifier {path : List String} (h : c.current.shape = .identifier path) :
    c.kind = .identifier := by
  rw [Cursor.kind, Token.kind, h, Token.Shape.kind]

theorem yields_simpleIdentifier (hc : c.Within tokens last) :
    Yields tokens last (fun r => r.1 ≤ last) simpleIdentifier c := by
  refine Yields.get_bind ?_
  split
  · next path hshape =>
    split
    · have hname := Cursor.goesOn (kind_of_identifier hshape) (by decide)
      exact Yields.advance_bind hc hname (Yields.pure (hc.next hname).within hc.le)
    · exact Yields.throw hc hc.le
  · exact yields_failExpected hc _

theorem yields_endStatement (hc : c.Within tokens last) :
    Yields tokens last (fun _ => True) endStatement c := by
  refine Yields.get_bind ?_
  split
  · next h => exact yields_discard (yields_advance hc (Cursor.goesOn h (by decide)))
  · exact Yields.pure hc trivial
  · exact Yields.pure hc trivial
  · exact Yields.throw hc hc.le

theorem yields_typeName (hc : c.Within tokens last) :
    Yields tokens last (fun _ => True) typeName c := by
  refine Yields.get_bind ?_
  extract_lets found
  refine Yields.check (yields_failExpected hc _) fun hkind => ?_
  have hname := Cursor.goesOn (not_not.mp hkind) (by decide)
  unfold found
  split
  · exact Yields.skip_bind hc hname (Yields.pure (hc.next hname).within trivial)
  · exact Yields.throw hc hc.le

/-- A token with a value as an integer is an integer literal. -/
theorem kind_of_toInt? {t : Token} {amount : Nat} (h : t.toInt? = some amount) :
    t.kind = .integer := by
  obtain ⟨shape, text, span⟩ := t
  cases shape with
  | numeral n =>
    obtain ⟨number, suffix⟩ := n
    cases number with
    | int value => rfl
    | float value => cases h
  | _ => cases h

theorem yields_exitAmount (hc : c.Within tokens last) :
    Yields tokens last (fun _ => True) exitAmount c := by
  refine Yields.get_bind ?_
  split
  · exact Yields.pure hc trivial
  · next hstar =>
    have hstar := Cursor.goesOn (not_not.mp hstar) (by decide)
    have hnext := (hc.next hstar).within
    refine Yields.skip_bind hc hstar (Yields.get_bind ?_)
    split
    · next amount hamount =>
      have hint := Cursor.goesOn (kind_of_toInt? hamount) (by decide)
      exact Yields.skip_bind hnext hint (Yields.pure (hnext.next hint).within trivial)
    · exact yields_failExpected hnext _

end Grammar

end FrontEnd
