import FrontEnd.Proofs.Grammar.Reading
import FrontEnd.Proofs.Printing.Cursors

/-!
# Reading canonical expressions

Every node of an expression is written so that it is an operand of its own: it is read
wherever an operand is wanted, and leaves its nodes behind and nothing pending. Operators
stand in parentheses with their operands, so that no operator outside can take part of
them. One turn of the loop reads at least one piece.
-/

namespace FrontEnd.Grammar

open Printing (Piece application call commaSeparated)
open Token (Kind Mark Keyword)

/-- An expression ends at the end of its line, or before a block. -/
def IsEnd (stop : Option Kind) : Prop := stop = none ∨ stop = some (.mark .openCurly)

/-- The loop comes from one place to another in so many turns at most. -/
def Advances (stop : Option Kind) (turns : Nat) (p : Progress) (c : Cursor) (q : Progress)
    (c' : Cursor) : Prop :=
  ∀ fuel, 4 * turns ≤ fuel → ∃ fuel', fuel ≤ fuel' + turns ∧
    expressionFrom fuel stop p c = expressionFrom fuel' stop q c'

/-- A piece that belongs to an expression, and begins no conditional. -/
def IsInner (p : Piece) : Prop :=
  p.shape ≠ .keyword .ifKw ∧ endsExpression (some (.mark .openCurly)) p.shape.kind = false

instance : DecidablePred IsInner := fun p =>
  inferInstanceAs (Decidable (p.shape ≠ .keyword .ifKw ∧
    endsExpression (some (.mark .openCurly)) p.shape.kind = false))

theorem endsExpression_of_isEnd {stop : Option Kind} (hstop : IsEnd stop) {k : Kind}
    (h : endsExpression (some (.mark .openCurly)) k = false) : endsExpression stop k = false := by
  rcases hstop with rfl | rfl
  · simp only [endsExpression, Bool.or_eq_false_iff] at h ⊢
    exact ⟨h.1, rfl⟩
  · exact h

theorem ne_terminator_of_endsExpression {stop : Option Kind} {k : Kind}
    (h : endsExpression stop k = false) : k ≠ .terminator := by
  rintro rfl
  cases h

namespace Advances

variable {stop : Option Kind} {m n : Nat} {p q r : Progress} {c c' c'' : Cursor}

theorem trans (h : Advances stop m p c q c') (h' : Advances stop n q c' r c'') :
    Advances stop (m + n) p c r c'' := by
  intro fuel hfuel
  obtain ⟨fuel', hle, heq⟩ := h fuel (by omega)
  obtain ⟨fuel'', hle', heq'⟩ := h' fuel' (by omega)
  exact ⟨fuel'', by omega, heq.trans heq'⟩

/-- A turn that reads one token. -/
theorem feed (hstop : IsEnd stop) {piece : Piece} {ps : List Piece}
    (hcover : Covers c (piece :: ps) c') (hinner : IsInner piece)
    (hcall : ∀ path, piece = .name path → c.next.kind ≠ .mark .openParen)
    (hfeed : p.feed c.index piece.shape = .ok q) : Advances stop 1 p c q c.next := by
  intro fuel hfuel
  obtain ⟨fuel, rfl⟩ := Nat.exists_eq_add_of_le' (show 1 ≤ fuel by omega)
  refine ⟨fuel, by omega, ?_⟩
  have hshape := hcover.shape
  have hend : endsExpression stop c.kind = false := by
    rw [hcover.kind]
    exact endsExpression_of_isEnd hstop hinner.2
  have hterm : ¬(c.kind = .terminator ∧ p.isOpen = true) := fun h =>
    ne_terminator_of_endsExpression hend h.1
  have hrun : orComplain (p.feed c.index piece.shape) c = .ok q c := by
    rw [hfeed]
    rfl
  rw [expressionFrom]
  simp only [get_bind, if_neg hterm, hend, Bool.false_eq_true, if_false]
  cases piece with
  | name path =>
    have hnext : ¬c.nextKind = .mark .openParen := by
      rw [hcover.nextKind]
      exact hcall path rfl
    simp only [hshape, Piece.shape, if_neg hnext]
    exact bind_run hrun _
  | keyword k =>
    cases k with
    | ifKw => exact absurd rfl hinner.1
    | _ =>
      simp only [hshape, Piece.shape]
      exact bind_run hrun _
  | _ =>
    simp only [hshape, Piece.shape]
    exact bind_run hrun _

/-- A turn that reads a name and the parenthesis after it. -/
theorem call (hstop : IsEnd stop) {path : List String} {ps : List Piece} {output : List Node}
    {pending : List Pending} {opened : Bool}
    (hcover : Covers c (.name path :: .mark .openParen :: ps) c') :
    Advances stop 2 ⟨output, pending, true, opened⟩ c
      ⟨output, .call c.index path (c.index + 1) 0 :: pending, true, true⟩ c.next.next := by
  intro fuel hfuel
  obtain ⟨fuel, rfl⟩ := Nat.exists_eq_add_of_le' (show 1 ≤ fuel by omega)
  refine ⟨fuel, by omega, ?_⟩
  have hend : endsExpression stop c.kind = false := by
    rw [hcover.kind]
    exact endsExpression_of_isEnd hstop rfl
  have hterm : ∀ p : Progress, ¬(c.kind = .terminator ∧ p.isOpen = true) := fun p h =>
    ne_terminator_of_endsExpression hend h.1
  have hnext : c.nextKind = .mark .openParen := by
    rw [hcover.nextKind]
    exact hcover.tail.kind
  rw [expressionFrom]
  simp only [get_bind, if_neg (hterm _), hend, Bool.false_eq_true, if_false, hcover.shape,
    Piece.shape, hnext, if_true]
  rfl

/-- A turn that reads a conditional. -/
theorem conditional (hstop : IsEnd stop) {ps : List Piece} {output : List Node}
    {pending : List Pending} {opened : Bool} {branch : Conditional}
    (hcover : Covers c (.keyword .ifKw :: ps) c')
    (hread : ∀ fuel, 4 * ps.length ≤ fuel → conditionalFrom fuel c.index c.next = .ok branch c') :
    Advances stop (ps.length + 1) ⟨output, pending, true, opened⟩ c
      ⟨.cond branch :: output, pending, false, false⟩ c' := by
  intro fuel hfuel
  obtain ⟨fuel, rfl⟩ := Nat.exists_eq_add_of_le' (show 1 ≤ fuel by omega)
  refine ⟨fuel, by omega, ?_⟩
  have hend : endsExpression stop c.kind = false := by
    rw [hcover.kind]
    exact endsExpression_of_isEnd hstop rfl
  have hterm : ∀ p : Progress, ¬(c.kind = .terminator ∧ p.isOpen = true) := fun p h =>
    ne_terminator_of_endsExpression hend h.1
  rw [expressionFrom]
  simp only [get_bind, if_neg (hterm _), hend, Bool.false_eq_true, if_false, hcover.shape,
    Piece.shape, Bool.not_true, discard_advance_bind]
  rw [bind_run (hread fuel (by omega))]
  rfl

end Advances

/-- A place where an operand that has been read ends: no parenthesis makes a call of it, and no
`else` goes on with it. -/
def Cursor.EndsOperand (c : Cursor) : Prop :=
  c.kind ≠ .mark .openParen ∧ c.skipTerminators.kind ≠ .keyword .elseKw

theorem Covers.endsOperand {c c' : Cursor} {m : Mark} {ps : List Piece}
    (h : Covers c (.mark m :: ps) c') (hm : m ≠ .openParen) : c.EndsOperand := by
  have hkind : c.kind = .mark m := h.kind
  constructor
  · rw [hkind]
    rintro ⟨⟩
    exact hm rfl
  · rw [Cursor.skipTerminators_of_ne (by rw [hkind]; simp), hkind]
    simp

/-- What an operand begins with. -/
inductive BeginsOperand : List Piece → Prop
  | name (path : List String) : BeginsOperand [.name path]
  | call (path : List String) (ps : List Piece) :
    BeginsOperand (.name path :: .mark .openParen :: ps)
  | number (value : Nat) (s : Token.Suffix) (ps : List Piece) :
    BeginsOperand (.number value s :: ps)
  | bool (value : Bool) (ps : List Piece) :
    BeginsOperand (.keyword (if value then .trueKw else .falseKw) :: ps)
  | cond (ps : List Piece) : BeginsOperand (.keyword .ifKw :: ps)
  | group (ps : List Piece) : BeginsOperand (.mark .openParen :: ps)

/-- The pieces are read as the expression wherever an operand is wanted. -/
structure Operand (ps : List Piece) (e : Expr) : Prop where
  begins : BeginsOperand ps
  reads : ∀ {stop : Option Kind} {c c' : Cursor}, IsEnd stop → Covers c ps c' → c'.EndsOperand →
    ∀ output pending opened, ∃ e', Expr.withoutTokens e' = Expr.withoutTokens e ∧
      Advances stop ps.length ⟨output, pending, true, opened⟩ c
        ⟨e'.reverse ++ output, pending, false, false⟩ c'

theorem binaryOf?_mark {o : Operator} (h : o.isPrefixOp = false) :
    binaryOf? (.mark o.mark) = some o := by
  cases o <;> first | rfl | cases h

theorem prefixOf?_mark {o : Operator} (h : o.isPrefixOp = true) :
    prefixOf? (.mark o.mark) = some o := by
  cases o <;> first | rfl | cases h

theorem isInner_mark (o : Operator) : IsInner (.mark o.mark) := by
  cases o <;> decide

theorem mark_ne_openParen (o : Operator) : o.mark ≠ .openParen := by
  cases o <;> decide

namespace Operand

theorem atom {p : Piece} {n : Node} (hbegins : BeginsOperand [p]) (hinner : IsInner p)
    (h : ∀ index, ∃ n', atomOf? index p.shape = some n' ∧ n'.withoutTokens = n.withoutTokens) :
    Operand [p] [n] := by
  refine ⟨hbegins, fun {stop c c'} hstop hcover hends output pending opened => ?_⟩
  obtain ⟨n', hn', halike⟩ := h c.index
  refine ⟨[n'], by simp [halike], ?_⟩
  have hnext : c.next = c' := hcover.tail.eq_of_nil
  have hfeed := Advances.feed hstop hcover hinner (fun _ _ => hnext ▸ hends.1)
    (feed_atom hn' output pending opened)
  rw [hnext] at hfeed
  exact hfeed

variable {ps l r : List Piece} {e e' : Expr}

theorem binary {o : Operator} (ho : o.isPrefixOp = false) (hl : Operand l e) (hr : Operand r e')
    (token : Nat) : Operand (application o [l, r]) (e ++ e' ++ [.op token o]) := by
  refine ⟨.group _, fun {stop c c'} hstop hcover hends output pending opened => ?_⟩
  obtain ⟨last, hinside, hclose⟩ := hcover.exists_of_append
  obtain ⟨middle, hleft, hright⟩ := hinside.exists_of_append
  -- `(`, the left operand, the operator, the right operand, `)`
  have hopen := Advances.feed (p := ⟨output, pending, true, opened⟩) hstop hleft (by decide)
    nofun rfl
  obtain ⟨a, ha, hreadl⟩ := hl.reads hstop hleft.tail (hright.endsOperand (mark_ne_openParen o))
    output (.group c.index :: pending) false
  have hflush : Progress.flushFor o (a.reverse ++ output) (.group c.index :: pending) =
      (a.reverse ++ output, .group c.index :: pending) := rfl
  have hoperator := Advances.feed hstop hright (isInner_mark o) nofun
    (feed_binaryOp (binaryOf?_mark ho) hflush middle.index)
  obtain ⟨b, hb, hreadr⟩ := hr.reads hstop hright.tail (hclose.endsOperand (by decide))
    (a.reverse ++ output) (.op o middle.index :: .group c.index :: pending) false
  have hcomplete : Progress.flushGroup (b.reverse ++ (a.reverse ++ output))
      (.op o middle.index :: .group c.index :: pending) =
      (.op middle.index o :: (b.reverse ++ (a.reverse ++ output)), .group c.index :: pending) := rfl
  have hend := Advances.feed hstop hclose (by decide) nofun (feed_closeGroup hcomplete last.index)
  rw [hclose.tail.eq_of_nil] at hend
  have hall := (((hopen.trans hreadl).trans hoperator).trans hreadr).trans hend
  have hlength : (application o [l, r]).length = 1 + l.length + 1 + r.length + 1 := by
    simp only [application, List.length_append, List.length_cons, List.length_nil]
    omega
  refine ⟨a ++ b ++ [.op middle.index o], by simp [ha, hb, Node.withoutTokens], ?_⟩
  rw [hlength]
  simpa using hall

theorem unary {o : Operator} (ho : o.isPrefixOp = true) (h : Operand ps e) (token : Nat) :
    Operand (application o [ps]) (e ++ [.op token o]) := by
  refine ⟨.group _, fun {stop c c'} hstop hcover hends output pending opened => ?_⟩
  have happlication : application o [ps] =
      .mark .openParen :: .mark o.mark :: ps ++ [.mark .closeParen] := by simp [application]
  rw [happlication] at hcover ⊢
  obtain ⟨last, hinside, hclose⟩ := hcover.exists_of_append
  -- `(`, the operator, the operand, `)`
  have hopen := Advances.feed (p := ⟨output, pending, true, opened⟩) hstop hinside (by decide)
    nofun rfl
  have hoperator := Advances.feed hstop hinside.tail (isInner_mark o) nofun
    (feed_prefixOp (prefixOf?_mark ho) c.next.index output (.group c.index :: pending) false)
  obtain ⟨a, ha, hread⟩ := h.reads hstop hinside.tail.tail (hclose.endsOperand (by decide)) output
    (.op o c.next.index :: .group c.index :: pending) false
  have hcomplete : Progress.flushGroup (a.reverse ++ output)
      (.op o c.next.index :: .group c.index :: pending) =
      (.op c.next.index o :: (a.reverse ++ output), .group c.index :: pending) := rfl
  have hend := Advances.feed hstop hclose (by decide) nofun (feed_closeGroup hcomplete last.index)
  rw [hclose.tail.eq_of_nil] at hend
  have hall := ((hopen.trans hoperator).trans hread).trans hend
  have hlength : (Piece.mark .openParen :: .mark o.mark :: ps ++ [Piece.mark .closeParen]).length =
      1 + 1 + ps.length + 1 := by
    simp only [List.length_append, List.length_cons, List.length_nil]
    omega
  refine ⟨a ++ [.op c.next.index o], by simp [ha, Node.withoutTokens], ?_⟩
  rw [hlength]
  simpa using hall

/-- Arguments are read after the parenthesis of a call. -/
theorem reads_commaSeparated {args : List (List Piece)} {es : List Expr}
    (h : List.Forall₂ Operand args es) (hne : args ≠ []) {stop : Option Kind} {c c' : Cursor}
    (hstop : IsEnd stop) (hcover : Covers c (commaSeparated args) c') (hends : c'.EndsOperand)
    (output : List Node) (pending : List Pending) (opened : Bool) (token : Nat)
    (path : List String) (paren commas : Nat) :
    ∃ e', Expr.withoutTokens e' = Expr.withoutTokens es.flatten ∧
      Advances stop (commaSeparated args).length
        ⟨output, .call token path paren commas :: pending, true, opened⟩ c
        ⟨e'.reverse ++ output, .call token path paren (commas + (args.length - 1)) :: pending,
          false, false⟩ c' := by
  induction h generalizing c output opened commas with
  | nil => exact absurd rfl hne
  | @cons a e args es ha hargs ih =>
    cases hargs with
    | nil =>
      rw [Printing.commaSeparated_singleton] at hcover ⊢
      obtain ⟨e', he', hread⟩ := ha.reads hstop hcover hends output
        (.call token path paren commas :: pending) opened
      exact ⟨e', by simpa using he', hread⟩
    | @cons a' _ args _ ha' hargs =>
      rw [Printing.commaSeparated_cons_cons] at hcover
      obtain ⟨middle, hfirst, hrest⟩ := hcover.exists_of_append
      obtain ⟨e', he', hread⟩ := ha.reads hstop hfirst (hrest.endsOperand (by decide)) output
        (.call token path paren commas :: pending) opened
      have hflush : Progress.flushGroup (e'.reverse ++ output)
          (.call token path paren commas :: pending) =
          (e'.reverse ++ output, .call token path paren commas :: pending) := rfl
      have hcomma := Advances.feed hstop hrest (by decide) nofun (feed_comma hflush middle.index)
      obtain ⟨others, hothers, hreads⟩ := ih (List.cons_ne_nil _ _) hrest.tail
        (e'.reverse ++ output) false (commas + 1)
      have hall := (hread.trans hcomma).trans hreads
      have hlength : (commaSeparated (a :: a' :: args)).length =
          a.length + 1 + (commaSeparated (a' :: args)).length := by
        rw [Printing.commaSeparated_cons_cons, List.length_append, List.length_cons]
        omega
      have hcommas : commas + 1 + ((a' :: args).length - 1) =
          commas + ((a :: a' :: args).length - 1) := by
        simp only [List.length_cons]
        omega
      rw [hcommas] at hall
      refine ⟨e' ++ others, by simp [he', hothers], ?_⟩
      rw [hlength]
      simpa using hall

theorem call (path : List String) {args : List (List Piece)} {es : List Expr}
    (h : List.Forall₂ Operand args es) (token : Nat) :
    Operand (call path args) (es.flatten ++ [.call token path es.length []]) := by
  refine ⟨.call path _, fun {stop c c'} hstop hcover hends output pending opened => ?_⟩
  obtain ⟨last, hinside, hclose⟩ := hcover.exists_of_append
  have hopen : Advances stop 2 ⟨output, pending, true, opened⟩ c
      ⟨output, .call c.index path (c.index + 1) 0 :: pending, true, true⟩ c.next.next :=
    Advances.call hstop hinside
  by_cases hargs : args = []
  · subst hargs
    cases h
    have hlast : c.next.next = last := hinside.tail.tail.eq_of_nil
    have hend := Advances.feed
      (p := ⟨output, .call c.index path (c.index + 1) 0 :: pending, true, true⟩) hstop hclose
      (by decide) nofun rfl
    rw [hclose.tail.eq_of_nil] at hend
    rw [hlast] at hopen
    exact ⟨[.call c.index path 0 []], by simp [Node.withoutTokens], hopen.trans hend⟩
  · obtain ⟨e', he', hreads⟩ := reads_commaSeparated h hargs hstop hinside.tail.tail
      (hclose.endsOperand (by decide)) output pending true c.index path (c.index + 1) 0
    have hflush : Progress.flushGroup (e'.reverse ++ output)
        (.call c.index path (c.index + 1) (0 + (args.length - 1)) :: pending) =
        (e'.reverse ++ output,
          .call c.index path (c.index + 1) (0 + (args.length - 1)) :: pending) := rfl
    have hend := Advances.feed hstop hclose (by decide) nofun (feed_closeCall hflush last.index)
    rw [hclose.tail.eq_of_nil] at hend
    have hall := (hopen.trans hreads).trans hend
    have hlength : (Printing.call path args).length = 2 + (commaSeparated args).length + 1 := by
      simp only [Printing.call, List.length_append, List.length_cons, List.length_nil]
      omega
    have harity : 0 + (args.length - 1) + 1 = es.length := by
      have hpos := List.length_pos_iff.mpr hargs
      have heq := h.length_eq
      omega
    rw [harity] at hall
    refine ⟨e' ++ [.call c.index path es.length []], by simp [he', Node.withoutTokens], ?_⟩
    rw [hlength]
    simpa using hall

end Operand

end FrontEnd.Grammar
