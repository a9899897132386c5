import FrontEnd.Proofs.Printing.SourceText

/-!
# Canonical text can be written

Every piece of a printable tree can be written, and no line of its text is empty: an
expression stays on the line that it begins on, but for the blocks of conditionals in it,
and every statement ends a line.
-/

namespace FrontEnd

namespace Printing

open Token (Mark)

/-- Pieces that begin anywhere on a line, and do not end the last one. -/
def Inline (ps : List Piece) : Prop := ∀ fresh, lineAfter fresh ps = some false

theorem inline_single {p : Piece} (hp : p.isWritable = true) (hline : p ≠ .lineEnd) :
    Inline [p] := fun fresh => lineAfter_cons hp hline fresh []

theorem lineAfter_flatten {args : List (List Piece)} (h : ∀ a ∈ args, Inline a) :
    lineAfter false args.flatten = some false := by
  induction args with
  | nil => rfl
  | cons a args ih =>
    obtain ⟨ha, hargs⟩ := List.forall_mem_cons.mp h
    rw [List.flatten_cons, lineAfter_append, ha, Option.bind_some, ih hargs]

theorem inline_flatten {args : List (List Piece)} (h : ∀ a ∈ args, Inline a) (hne : args ≠ []) :
    Inline args.flatten := by
  cases args with
  | nil => exact absurd rfl hne
  | cons a args =>
    obtain ⟨ha, hargs⟩ := List.forall_mem_cons.mp h
    intro fresh
    rw [List.flatten_cons, lineAfter_append, ha, Option.bind_some, lineAfter_flatten hargs]

theorem commaSeparated_singleton (a : List Piece) : commaSeparated [a] = a :=
  List.intercalate_singleton

theorem commaSeparated_cons_cons (a a' : List Piece) (args : List (List Piece)) :
    commaSeparated (a :: a' :: args) = a ++ .mark .comma :: commaSeparated (a' :: args) := by
  rw [commaSeparated, List.intercalate_cons_cons, List.append_assoc]
  rfl

theorem lineAfter_commaSeparated {args : List (List Piece)} (h : ∀ a ∈ args, Inline a) :
    lineAfter false (commaSeparated args) = some false := by
  induction args with
  | nil => rfl
  | cons a args ih =>
    obtain ⟨ha, hargs⟩ := List.forall_mem_cons.mp h
    cases args with
    | nil => rw [commaSeparated_singleton, ha]
    | cons a' args =>
      rw [commaSeparated_cons_cons, lineAfter_append, ha, Option.bind_some, lineAfter_mark,
        ih hargs]

theorem inline_application (o : Operator) {args : List (List Piece)} (h : ∀ a ∈ args, Inline a) :
    Inline (application o args) := by
  intro fresh
  unfold application
  split
  · next l r =>
    obtain ⟨hl, hr, -⟩ := by simpa only [List.forall_mem_cons] using h
    simp [hl false, hr false]
  · simp [lineAfter_flatten h]

theorem inline_call {path : List String} (hpath : isPath path = true) {args : List (List Piece)}
    (h : ∀ a ∈ args, Inline a) : Inline (call path args) := by
  intro fresh
  simp [call, lineAfter_name hpath, lineAfter_commaSeparated h]

theorem inline_typePieces {type : ValueType} (h : type ∈ ValueType.named) :
    Inline (typePieces type) := by
  have hpath : isPath [type.toText] = true := by
    revert type
    decide
  exact inline_single hpath nofun

/-- Where a line can be ended, it is not empty. -/
theorem lineAfter_of_append_lineEnd {fresh : Bool} {ps : List Piece}
    (h : lineAfter fresh (ps ++ [.lineEnd]) = some true) : lineAfter fresh ps = some false := by
  rw [lineAfter_append, Option.bind_eq_some_iff] at h
  obtain ⟨_ | _, hps, hend⟩ := h
  · exact hps
  · cases hend

theorem Inline.append_lineEnd {ps : List Piece} (h : Inline ps) (fresh : Bool) :
    lineAfter fresh (ps ++ [.lineEnd]) = some true := by
  rw [lineAfter_append, h, Option.bind_some, lineAfter_lineEnd, lineAfter_nil]

theorem lineAfter_visibility_append {isPublic : Bool} {ps : List Piece} {fresh' : Bool}
    (h : ∀ fresh, lineAfter fresh ps = some fresh') (fresh : Bool) :
    lineAfter fresh (visibility isPublic ++ ps) = some fresh' := by
  cases isPublic with
  | true => exact (lineAfter_keyword fresh .pubKw ps).trans (h false)
  | false => exact h fresh

end Printing

open Printing

mutual

theorem Node.inline_pieces {args : List (List Piece)} (hargs : ∀ a ∈ args, Inline a) :
    (n : Node) → n.isPrintable = true → Inline (n.pieces args)
  | .int _ value type, h => by
    rw [Node.isPrintable, Bool.and_eq_true, decide_eq_true_eq] at h
    rw [Node.pieces]
    refine inline_single ?_ nofun
    have hsuffix : (type.integerSuffix?.getD .none).isFloat = false := by
      cases type <;> rfl
    rw [Piece.isWritable, hsuffix]
    simpa using h.1
  | .float .., h => by
    rw [Node.isPrintable] at h
    cases h
  | .bool _ value, _ => by
    rw [Node.pieces]
    exact inline_single rfl nofun
  | .var _ path _, h => by
    rw [Node.isPrintable, Bool.and_eq_true] at h
    rw [Node.pieces]
    exact inline_single h.1 nofun
  | .op _ o, _ => by
    rw [Node.pieces]
    exact inline_application o hargs
  | .call _ path _ _, h => by
    rw [Node.isPrintable, Bool.and_eq_true] at h
    rw [Node.pieces]
    exact inline_call h.1 hargs
  | .cond c, h => by
    rw [Node.isPrintable] at h
    rw [Node.pieces]
    intro fresh
    rw [lineAfter_keyword]
    exact Conditional.inline_pieces c h false

theorem Expr.inline_piecesFrom {stack : List (List Piece)} (hstack : ∀ a ∈ stack, Inline a) :
    (e : List Node) → stack ≠ [] ∨ e ≠ [] → Expr.arePrintable e = true →
      Inline (Expr.piecesFrom stack e)
  | [], hne, _ => by
    rw [Expr.piecesFrom]
    refine inline_flatten (fun a ha => hstack a (List.mem_reverse.mp ha)) ?_
    simpa using hne
  | n :: rest, _, h => by
    rw [Expr.arePrintable, Bool.and_eq_true] at h
    rw [Expr.piecesFrom]
    have htake : ∀ a ∈ (stack.take n.operands).reverse, Inline a := fun a ha =>
      hstack a (List.mem_of_mem_take (List.mem_reverse.mp ha))
    have hdrop : ∀ a ∈ stack.drop n.operands, Inline a := fun a ha =>
      hstack a (List.mem_of_mem_drop ha)
    have hn := Node.inline_pieces htake n h.1
    exact Expr.inline_piecesFrom (List.forall_mem_cons.mpr ⟨hn, hdrop⟩) rest
      (.inl (List.cons_ne_nil _ _)) h.2

theorem Conditional.inline_pieces : (c : Conditional) → c.isPrintable = true → Inline c.pieces
  | .mk _ condition onTrue onFalse _ _, h => by
    rw [Conditional.isPrintable] at h
    simp only [Bool.and_eq_true, decide_eq_true_eq] at h
    obtain ⟨⟨⟨⟨⟨hcomplete, hcondition⟩, htrue⟩, hfalse⟩, -⟩, -⟩ := h
    have hc := Expr.inline_piecesFrom (List.forall_mem_nil _) condition (.inr hcomplete.ne_nil)
      hcondition
    have ht := Block.lineAfter_pieces onTrue htrue
    have hf := Block.lineAfter_elsePieces onFalse hfalse
    intro fresh
    rw [Conditional.pieces]
    simp [hc fresh, ht, hf]

theorem Block.lineAfter_elsePieces :
    (b : List Statement) → Block.isPrintable b = true →
      lineAfter false (Block.elsePieces b) = some false
  | [], _ => by
    rw [Block.elsePieces]
    rfl
  | s :: rest, h => by
    rw [Block.isPrintable, Bool.and_eq_true] at h
    have hs := Statement.lineAfter_pieces s h.1 true
    have hrest := Block.lineAfter_pieces rest h.2
    unfold Block.elsePieces
    split
    · rfl
    · next c heq =>
      cases heq
      rw [Statement.pieces, List.cons_append, lineAfter_keyword] at hs
      rw [lineAfter_keyword, lineAfter_keyword]
      exact lineAfter_of_append_lineEnd hs
    · next heq =>
      cases heq
      simp [hs, hrest]

theorem Statement.lineAfter_pieces :
    (s : Statement) → s.isPrintable = true → ∀ fresh, lineAfter fresh s.pieces = some true
  | .declare _ name type value _, h => by
    rw [Statement.isPrintable] at h
    simp only [Bool.and_eq_true] at h
    obtain ⟨⟨⟨⟨hname, htype⟩, hcomplete⟩, hvalue⟩, -⟩ := h
    have ht : lineAfter false ((type.map typePieces).getD []) = some false := by
      cases type with
      | none => rfl
      | some type => exact inline_typePieces (of_decide_eq_true htype) false
    have hv : lineAfter false
        (if value.isEmpty then [] else .mark .assign :: Expr.piecesFrom [] value) = some false := by
      by_cases hempty : value.isEmpty = true
      · rw [if_pos hempty]
        rfl
      · have hne : value ≠ [] := by simpa using hempty
        have hinline := Expr.inline_piecesFrom (List.forall_mem_nil _) value (.inr hne) hvalue
        rw [if_neg hempty, lineAfter_mark, hinline]
    intro fresh
    rw [Statement.pieces, lineAfter_append, lineAfter_append, lineAfter_name hname,
      lineAfter_mark, ht, Option.bind_some, hv]
    rfl
  | .assign _ target value, h => by
    rw [Statement.isPrintable] at h
    simp only [Bool.and_eq_true, decide_eq_true_eq] at h
    obtain ⟨⟨⟨hpath, -⟩, hcomplete⟩, hvalue⟩ := h
    have hinline := Expr.inline_piecesFrom (List.forall_mem_nil _) value (.inr hcomplete.ne_nil)
      hvalue
    intro fresh
    rw [Statement.pieces]
    simp [lineAfter_name hpath, hinline false]
  | .eval _ value, h => by
    rw [Statement.isPrintable] at h
    simp only [Bool.and_eq_true, decide_eq_true_eq] at h
    obtain ⟨⟨hcomplete, hvalue⟩, -⟩ := h
    rw [Statement.pieces]
    exact (Expr.inline_piecesFrom (List.forall_mem_nil _) value (.inr hcomplete.ne_nil)
      hvalue).append_lineEnd
  | .ret _ value, h => by
    rw [Statement.isPrintable, Bool.and_eq_true] at h
    intro fresh
    rw [Statement.pieces, List.cons_append, lineAfter_keyword]
    by_cases hempty : value = []
    · rw [hempty, Expr.piecesFrom]
      rfl
    · exact (Expr.inline_piecesFrom (List.forall_mem_nil _) value (.inr hempty)
        h.2).append_lineEnd false
  | .cond c, h => by
    rw [Statement.isPrintable] at h
    intro fresh
    rw [Statement.pieces, List.cons_append, lineAfter_keyword]
    exact (Conditional.inline_pieces c h).append_lineEnd false
  | .loop _ condition body, h => by
    rw [Statement.isPrintable] at h
    simp only [Bool.and_eq_true, decide_eq_true_eq] at h
    obtain ⟨⟨hcomplete, hcondition⟩, hbody⟩ := h
    have hc := Expr.inline_piecesFrom (List.forall_mem_nil _) condition (.inr hcomplete.ne_nil)
      hcondition
    have hb := Block.lineAfter_pieces body hbody
    intro fresh
    rw [Statement.pieces]
    simp [hc false, hb]
  | .exit _ amount, h => by
    rw [Statement.isPrintable] at h
    have hamount : Inline [.number amount .none] :=
      inline_single (Bool.and_eq_true_iff.mpr ⟨h, rfl⟩) nofun
    intro fresh
    rw [Statement.pieces, lineAfter_keyword, lineAfter_mark]
    exact hamount.append_lineEnd false
  | .next _, _ => by
    intro fresh
    rw [Statement.pieces, lineAfter_keyword]
    rfl

theorem Block.lineAfter_pieces :
    (b : List Statement) → Block.isPrintable b = true →
      lineAfter true (Block.pieces b) = some true
  | [], _ => by
    rw [Block.pieces]
    rfl
  | s :: rest, h => by
    rw [Block.isPrintable, Bool.and_eq_true] at h
    rw [Block.pieces, lineAfter_append, Statement.lineAfter_pieces s h.1, Option.bind_some,
      Block.lineAfter_pieces rest h.2]

end

theorem Function.lineAfter_pieces {f : Function} (h : f.isPrintable = true) (fresh : Bool) :
    lineAfter fresh f.pieces = some true := by
  rw [Function.isPrintable] at h
  simp only [Bool.and_eq_true, decide_eq_true_eq] at h
  obtain ⟨⟨⟨⟨⟨⟨⟨hname, hparams⟩, -⟩, htype⟩, -⟩, -⟩, -⟩, hbody⟩ := h
  have hcall : Inline (call [f.name] (f.params.map Param.pieces)) := by
    refine inline_call hname fun a ha => ?_
    obtain ⟨p, hp, rfl⟩ := List.mem_map.mp ha
    have hp := List.all_eq_true.mp hparams p hp
    rw [Param.isPrintable, Bool.and_eq_true, decide_eq_true_eq] at hp
    intro fresh
    simp [Param.pieces, lineAfter_name hp.1, inline_typePieces hp.2 false]
  have ht := inline_typePieces htype
  have hb := Block.lineAfter_pieces f.body hbody
  simp [Function.pieces, hcall false, ht false, hb]

theorem Global.lineAfter_pieces {g : Global} (hname : isPath [g.name] = true)
    (htype : g.type ∈ ValueType.named) (fresh : Bool) : lineAfter fresh g.pieces = some true := by
  have ht := inline_typePieces htype
  simp [Global.pieces, lineAfter_name hname, ht false]

theorem Item.lineAfter_pieces {i : Item} (h : i.isPrintable = true) (fresh : Bool) :
    lineAfter fresh i.pieces = some true := by
  cases i with
  | function f => exact lineAfter_visibility_append (Function.lineAfter_pieces h) fresh
  | global g =>
    rw [Item.isPrintable] at h
    simp only [Bool.and_eq_true, decide_eq_true_eq] at h
    exact lineAfter_visibility_append (Global.lineAfter_pieces h.1.1 h.1.2) fresh
  | imports i =>
    rw [Item.isPrintable, Bool.and_eq_true] at h
    have hselected : lineAfter false i.selectionPieces = some false := by
      unfold Import.selectionPieces
      split
      · rfl
      · have hnames : ∀ a ∈ i.selected.map fun s => [Piece.name [s.2]], Inline a := by
          intro a ha
          obtain ⟨s, hs, rfl⟩ := List.mem_map.mp ha
          exact inline_single (List.all_eq_true.mp h.2 s hs) nofun
        simp [lineAfter_commaSeparated hnames]
    simp [Item.pieces, lineAfter_name h.1, hselected]
  | submodule s =>
    have hname : isPath [s.name] = true := h
    simp [Item.pieces, lineAfter_name hname]

/-- The canonical text of a printable module can be written. -/
theorem lineAfter_flatMap_pieces {items : List Item} (h : items.all Item.isPrintable = true) :
    lineAfter true (items.flatMap Item.pieces) = some true := by
  induction items with
  | nil => rfl
  | cons i items ih =>
    rw [List.all_cons, Bool.and_eq_true] at h
    rw [List.flatMap_cons, lineAfter_append, Item.lineAfter_pieces h.1, Option.bind_some, ih h.2]

end FrontEnd
