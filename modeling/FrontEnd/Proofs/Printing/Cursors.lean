import FrontEnd.Grammar.Item
import FrontEnd.Proofs.Printing.Lines
import FrontEnd.Proofs.Printing.Scanning

/-!
# Cursors over pieces

A cursor covers pieces if the tokens from it on were read from them. The readers that
look at a fixed number of tokens are run on covered pieces; how the others go on is told
by the place where the first part of them ends.
-/

namespace FrontEnd.Grammar

open Printing (Piece)
open Token (Kind Mark Keyword)

/-- The tokens from one place up to another one were read from the pieces. -/
inductive Covers : Cursor → List Piece → Cursor → Prop
  | nil (c : Cursor) : Covers c [] c
  | cons {index : Nat} {t u : Token} {rest : List Token} {p : Piece} {ps : List Piece} {c' : Cursor}
    (ht : p.IsReadAs t) (h : Covers ⟨index + 1, u, rest⟩ ps c') :
    Covers ⟨index, t, u :: rest⟩ (p :: ps) c'

namespace Covers

variable {c c' : Cursor} {p : Piece} {ps qs : List Piece}

theorem eq_of_nil (h : Covers c [] c') : c = c' := by
  cases h
  rfl

theorem head (h : Covers c (p :: ps) c') : p.IsReadAs c.current := by
  cases h with
  | cons ht _ => exact ht

theorem tail (h : Covers c (p :: ps) c') : Covers c.next ps c' := by
  cases h with
  | cons _ h => exact h

theorem shape (h : Covers c (p :: ps) c') : c.current.shape = p.shape := h.head.shape

theorem kind (h : Covers c (p :: ps) c') : c.kind = p.shape.kind :=
  congrArg Token.Shape.kind h.shape

theorem nextKind (h : Covers c (p :: ps) c') : c.nextKind = c.next.kind := by
  cases h
  rfl

theorem exists_of_append (h : Covers c (ps ++ qs) c') :
    ∃ middle, Covers c ps middle ∧ Covers middle qs c' := by
  induction ps generalizing c with
  | nil => exact ⟨c, .nil c, h⟩
  | cons p ps ih =>
    cases h with
    | cons ht h =>
      obtain ⟨middle, hps, hqs⟩ := ih h
      exact ⟨middle, .cons ht hps, hqs⟩

/-- A cursor covers no more pieces than there are tokens left. -/
theorem length_le (h : Covers c ps c') : ps.length ≤ c.remaining := by
  induction h with
  | nil c => exact Nat.zero_le _
  | cons ht h ih => exact Nat.succ_le_succ ih

/-- What is left where the pieces end stands after the end of a line. -/
theorem skip_lineEnd (h : Covers c (.lineEnd :: ps) c') :
    c.skipTerminators = c.next.skipTerminators := by
  cases h with
  | cons ht h =>
    have hkind : Token.kind _ = .terminator := congrArg Token.Shape.kind ht.shape
    exact if_pos hkind

end Covers

theorem Cursor.skipTerminators_of_ne {c : Cursor} (h : c.kind ≠ .terminator) :
    c.skipTerminators = c := by
  obtain ⟨index, t, _ | ⟨u, rest⟩⟩ := c
  · rfl
  · exact if_neg h

/-! ## Running the readers -/

section

variable {α β : Type} {c c' : Cursor}

@[simp]
theorem get_bind (f : Cursor → Parse α) : (get >>= f) c = f c c := rfl

@[simp]
theorem advance_bind (f : Nat → Parse α) : (advance >>= f) c = f c.index c.next := rfl

@[simp]
theorem discard_advance_bind (f : PUnit → Parse α) :
    (discard advance >>= f) c = f ⟨⟩ c.next := rfl

@[simp]
theorem skipTerminators_bind (f : Unit → Parse α) :
    (skipTerminators >>= f) c = f () c.skipTerminators := rfl

@[simp]
theorem set_bind (f : PUnit → Parse α) : (set c' >>= f) c = f ⟨⟩ c' := rfl

@[simp]
theorem pure_bind_run (a : α) (f : α → Parse β) : ((pure a : Parse α) >>= f) c = f a c := rfl

@[simp]
theorem pure_run (a : α) : (pure a : Parse α) c = .ok a c := rfl

/-- What comes after a part that has been read. -/
theorem bind_run {x : Parse α} {a : α} (h : x c = .ok a c') (f : α → Parse β) :
    (x >>= f) c = f a c' := by
  change EStateM.bind x f c = _
  rw [EStateM.bind, h]

theorem discard_run {x : Parse α} {a : α} (h : x c = .ok a c') :
    (discard x : Parse PUnit) c = .ok ⟨⟩ c' := by
  change EStateM.map _ x c = _
  rw [EStateM.map, h]

end

variable {c c' : Cursor} {ps : List Piece}

theorem expect_run {k : Kind} (h : c.kind = k) : expect k c = .ok c.index c.next := by
  simp only [expect, expectOr, get_bind, h, if_true]
  rfl

theorem endStatement_run (h : c.kind = .terminator) : endStatement c = .ok ⟨⟩ c.next := by
  simp only [endStatement, get_bind, h]
  rfl

theorem simpleIdentifier_run {name : String} (h : Covers c (.name [name] :: ps) c') :
    simpleIdentifier c = .ok (c.index, name) c.next := by
  have htext : c.current.text = name := by
    rw [h.head.text, Piece.text, Printing.joinDots_singleton, String.ofList_toList]
  have hshape : c.current.shape = .identifier [name] := h.shape
  simp only [simpleIdentifier, get_bind, hshape, htext]
  rfl

theorem ofName?_toText {type : ValueType} (h : type ∈ ValueType.named) :
    ValueType.ofName? type.toText = some type := by
  revert type
  decide

theorem typeName_run {type : ValueType} (htype : type ∈ ValueType.named)
    (h : Covers c (.name [type.toText] :: ps) c') : typeName c = .ok type c.next := by
  have htext : c.current.text = type.toText := by
    rw [h.head.text, Piece.text, Printing.joinDots_singleton, String.ofList_toList]
  have hkind : c.kind = .identifier := h.kind
  simp only [typeName, get_bind, hkind, ne_eq, not_true, if_false, htext, ofName?_toText htype]
  rfl

theorem exitAmount_run {amount : Nat} {s : Token.Suffix}
    (h : Covers c (.mark .star :: .number amount s :: ps) c') :
    exitAmount c = .ok amount c.next.next := by
  have hkind : c.kind = .mark .star := h.kind
  have hamount : c.next.current.toInt? = some amount := by
    have hshape : c.next.current.shape = .numeral ⟨.int amount, s⟩ := h.tail.shape
    rw [Token.toInt?, Token.number?, hshape]
    rfl
  simp only [exitAmount, get_bind, hkind, ne_eq, not_true, if_false, discard_advance_bind, hamount]
  rfl

end FrontEnd.Grammar
