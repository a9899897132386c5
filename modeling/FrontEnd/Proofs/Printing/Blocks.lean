import FrontEnd.Proofs.Grammar.Expressions
import FrontEnd.Proofs.Printing.Operands

/-!
# Reading canonical blocks

A reader of blocks or conditionals needs to know of the pieces after its own only how they
do not go on: no parenthesis follows an operand, no `else` a conditional, and no terminator
the end of a line. Given that the expressions and statements inside are read, so is what
holds them.
-/

namespace FrontEnd

/-- Leaving out the tokens does not change which expressions are lone conditionals. -/
theorem Expr.isLoneConditional_withoutTokens (e : Expr) :
    Expr.isLoneConditional (Expr.withoutTokens e) = Expr.isLoneConditional e := by
  rcases e with _ | ⟨n, _ | ⟨n', rest⟩⟩
  · simp [Expr.isLoneConditional]
  · cases n <;> simp [Expr.isLoneConditional, Node.withoutTokens]
  · simp [Expr.isLoneConditional]

theorem Expr.eq_cond_of_withoutTokens {e : Expr} {c : Conditional}
    (h : Expr.withoutTokens e = Expr.withoutTokens [.cond c]) :
    ∃ c', e = [.cond c'] ∧ c'.withoutTokens = c.withoutTokens := by
  rcases e with _ | ⟨n, _ | ⟨n', rest⟩⟩
  · simp at h
  · cases n with
    | cond c' => exact ⟨c', rfl, by simpa [Node.withoutTokens] using h⟩
    | _ => simp [Node.withoutTokens] at h
  · simp at h

theorem Expr.ne_nil_of_withoutTokens {e e' : Expr}
    (h : Expr.withoutTokens e' = Expr.withoutTokens e) (he : e ≠ []) : e' ≠ [] := by
  rintro rfl
  cases e with
  | nil => exact he rfl
  | cons n rest => simp at h

theorem Statement.pieces_ne_nil (s : Statement) : s.pieces ≠ [] := by
  cases s <;> simp [Statement.pieces]

namespace Grammar

open Printing (Piece application commaSeparated typePieces)
open Token (Kind Mark Keyword)

/-! ## Expressions and where they end -/

/-- A place at the end of an expression. -/
def Cursor.IsEndOf (c : Cursor) (stop : Option Kind) : Prop :=
  (stop = none ∧ c.kind = .terminator) ∨
    (stop = some (.mark .openCurly) ∧ c.kind = .mark .openCurly)

/-- A place where a line begins, or a block ends. -/
def Cursor.BeginsLine (c : Cursor) : Prop :=
  c.kind ≠ .terminator ∧ c.kind ≠ .keyword .elseKw

theorem Covers.endsOperand_lineEnd {c c' : Cursor} (h : Covers c [.lineEnd] c')
    (hline : c'.BeginsLine) : c.EndsOperand := by
  have hkind : c.kind = .terminator := h.kind
  have hskip : c.skipTerminators = c' := by
    rw [h.skip_lineEnd, h.tail.eq_of_nil, Cursor.skipTerminators_of_ne hline.1]
  constructor
  · rw [hkind]
    decide
  · rw [hskip]
    exact hline.2

theorem endExpression_run {stop : Option Kind} {p : Progress} {c : Cursor} (hp : p.isOpen = false)
    (hpending : p.pending = []) (hend : c.IsEndOf stop) :
    endExpression stop p c = .ok p.output.reverse c.next := by
  unfold endExpression
  simp only [get_bind, hp, hpending, Progress.finish]
  rcases hend with ⟨rfl, hkind⟩ | ⟨rfl, hkind⟩
  · simp only [hkind]
    rfl
  · simp only [hkind]
    rfl

theorem expressionFrom_run {stop : Option Kind} {p : Progress} {c : Cursor} (hp : p.isOpen = false)
    (hpending : p.pending = []) (hend : c.IsEndOf stop) (fuel : Nat) :
    expressionFrom (fuel + 1) stop p c = .ok p.output.reverse c.next := by
  have hopen : ¬(c.kind = .terminator ∧ p.isOpen = true) := by
    rw [hp]
    exact fun h => Bool.false_ne_true h.2
  have hends : endsExpression stop c.kind = true := by
    rcases hend with ⟨rfl, hkind⟩ | ⟨rfl, hkind⟩ <;> rw [hkind] <;> rfl
  rw [expressionFrom]
  simp only [get_bind, if_neg hopen, hends, if_true]
  exact endExpression_run hp hpending hend

/-- An expression is read up to its end, and the token there too. -/
theorem Operand.expressionFrom_run {ps : List Piece} {e : Expr} (h : Operand ps e)
    {stop : Option Kind} {c c' : Cursor} (hcover : Covers c ps c') (hends : c'.EndsOperand)
    (hend : c'.IsEndOf stop) :
    ∃ e', Expr.withoutTokens e' = Expr.withoutTokens e ∧
      ∀ fuel, 4 * ps.length < fuel → expressionFrom fuel stop .start c = .ok e' c'.next := by
  have hstop : IsEnd stop := hend.imp And.left And.left
  obtain ⟨e', he', hread⟩ := h.reads hstop hcover hends [] [] false
  refine ⟨e', he', fun fuel hfuel => ?_⟩
  obtain ⟨fuel', hle, heq⟩ := hread fuel (Nat.le_of_lt hfuel)
  obtain ⟨fuel', rfl⟩ := Nat.exists_eq_add_of_le' (show 1 ≤ fuel' by omega)
  have hclosed : Progress.isOpen ⟨e'.reverse ++ [], [], false, false⟩ = false := rfl
  have hrun := Grammar.expressionFrom_run hclosed rfl hend fuel'
  rw [List.append_nil, List.reverse_reverse] at hrun
  rw [List.append_nil] at heq
  exact heq.trans hrun

/-- The value of a statement is read up to the end of its line. -/
theorem Operand.value_run {ps : List Piece} {e : Expr} (h : Operand ps e) (he : e ≠ [])
    {c c' : Cursor} (hcover : Covers c (ps ++ [.lineEnd]) c') (hline : c'.BeginsLine) :
    ∃ e', Expr.withoutTokens e' = Expr.withoutTokens e ∧ ∀ fuel, 4 * ps.length < fuel →
      nonEmpty (expressionFrom fuel none .start) c = .ok e' c' := by
  obtain ⟨middle, hvalue, hend⟩ := hcover.exists_of_append
  obtain ⟨e', he', hrun⟩ := h.expressionFrom_run hvalue (hend.endsOperand_lineEnd hline)
    (.inl ⟨rfl, hend.kind⟩)
  rw [hend.tail.eq_of_nil] at hrun
  exact ⟨e', he', fun fuel hfuel =>
    nonEmpty_eq_ok.mpr ⟨hrun fuel hfuel, Expr.ne_nil_of_withoutTokens he' he⟩⟩

/-- A condition is read up to the block after it. -/
theorem Operand.condition_run {ps : List Piece} {e : Expr} (h : Operand ps e) (he : e ≠ [])
    {c c' : Cursor} {rest : List Piece} {last : Cursor} (hcover : Covers c ps c')
    (hblock : Covers c' (.mark .openCurly :: rest) last) :
    ∃ e', Expr.withoutTokens e' = Expr.withoutTokens e ∧ ∀ fuel, 4 * ps.length < fuel →
      nonEmpty (expressionFrom fuel (some (.mark .openCurly)) .start) c = .ok e' c'.next := by
  obtain ⟨e', he', hrun⟩ := h.expressionFrom_run hcover (hblock.endsOperand (by decide))
    (.inr ⟨rfl, hblock.kind⟩)
  exact ⟨e', he', fun fuel hfuel =>
    nonEmpty_eq_ok.mpr ⟨hrun fuel hfuel, Expr.ne_nil_of_withoutTokens he' he⟩⟩

/-! ## Conditionals and blocks -/

/-- What follows the first block of a conditional: the other case, if there is one. -/
def elseFrom (fuel token : Nat) (condition : Expr) (onTrue : Block) : Parse Conditional := do
  let c := (← get).skipTerminators
  if c.kind ≠ .keyword .elseKw then return .ofBlocks token condition onTrue []
  set c.next
  match (← get).kind with
  | .keyword .ifKw =>
    let index ← advance
    let branch ← conditionalFrom fuel index
    return .ofBlocks token condition onTrue [.cond branch]
  | .mark .openCurly =>
    discard advance
    let onFalse ← blockFrom fuel []
    return .ofBlocks token condition onTrue onFalse
  | _ => failExpected "expected `if` or `\x7b`"

theorem conditionalFrom_succ (fuel token : Nat) :
    conditionalFrom (fuel + 1) token = (do
      let condition ← nonEmpty (expressionFrom fuel (some (.mark .openCurly)) .start)
      let onTrue ← blockFrom fuel []
      elseFrom fuel token condition onTrue) := by
  rw [conditionalFrom]
  rfl

/-- The pieces of the conditional are read as it, after its `if`. -/
def ReadsConditional (c : Conditional) : Prop :=
  ∀ (token : Nat) {start last : Cursor}, Covers start c.pieces last →
    last.skipTerminators.kind ≠ .keyword .elseKw →
    ∃ c', c'.withoutTokens = c.withoutTokens ∧ ∀ fuel, 4 * c.pieces.length ≤ fuel →
      conditionalFrom fuel token start = .ok c' last

/-- The pieces are read as the other case of any conditional, after its first block. -/
def ReadsElse (b : Block) : Prop :=
  ∀ (token : Nat) (condition : Expr) (onTrue : Block) {start last : Cursor},
    Covers start (Block.elsePieces b) last → last.skipTerminators.kind ≠ .keyword .elseKw →
    ∃ b', Block.withoutTokens b' = Block.withoutTokens b ∧
      ∀ fuel, 4 * (Block.elsePieces b).length ≤ fuel →
        elseFrom fuel token condition onTrue start =
          .ok (.ofBlocks token condition onTrue b') last

/-- The lines of the block are read as it, up to the bracket that closes it. -/
structure ReadsBlock (b : Block) : Prop where
  begins : ∀ {start last : Cursor}, Covers start (Block.pieces b) last →
    last.kind = .mark .closeCurly → start.BeginsLine
  reads : ∀ {start last : Cursor}, Covers start (Block.pieces b) last →
    last.kind = .mark .closeCurly →
    ∃ b', Block.withoutTokens b' = Block.withoutTokens b ∧
      ∀ (fuel : Nat) (done : List Statement) (before : Cursor), before.skipTerminators = start →
        4 * ((Block.pieces b).length + 1) ≤ fuel →
          blockFrom fuel done before = .ok (done.reverse ++ b') last.next

/-- A place where a statement begins. -/
def Cursor.BeginsStatement (c : Cursor) : Prop :=
  c.BeginsLine ∧ c.kind ≠ .mark .closeCurly ∧ c.kind ≠ .endOfFile

/-- The lines of the statement are read as it, but for terminators at the end. -/
structure ReadsStatement (s : Statement) : Prop where
  begins : ∀ {start last : Cursor}, Covers start s.pieces last → start.BeginsStatement
  reads : ∀ {start last : Cursor}, Covers start s.pieces last → last.BeginsLine →
    ∃ s' after, s'.withoutTokens = s.withoutTokens ∧ after.skipTerminators = last ∧
      ∀ fuel, 4 * s.pieces.length ≤ fuel → statementFrom fuel start = .ok s' after
  conditional : ∀ c, s = .cond c → ReadsConditional c

theorem Cursor.beginsStatement_of_kind {c : Cursor} {k : Kind} (h : c.kind = k)
    (hk : k ∉ [Kind.terminator, .keyword .elseKw, .mark .closeCurly, .endOfFile]) :
    c.BeginsStatement := by
  subst h
  simp only [List.mem_cons, List.not_mem_nil, or_false, not_or] at hk
  exact ⟨⟨hk.1, hk.2.1⟩, hk.2.2⟩

/-- An operand begins with one of few kinds of tokens. -/
theorem BeginsOperand.kind_mem {ps : List Piece} (h : BeginsOperand ps) {c c' : Cursor}
    {qs : List Piece} (hcover : Covers c (ps ++ qs) c') :
    c.kind ∈ [Kind.identifier, .integer, .keyword .trueKw, .keyword .falseKw, .keyword .ifKw,
      .mark .openParen] := by
  cases h with
  | name | call =>
    have hkind : c.kind = .identifier := hcover.kind
    simp [hkind]
  | number =>
    have hkind : c.kind = .integer := hcover.kind
    simp [hkind]
  | bool value =>
    have hkind : c.kind = .keyword (if value then .trueKw else .falseKw) := hcover.kind
    cases value <;> simp [hkind]
  | cond =>
    have hkind : c.kind = .keyword .ifKw := hcover.kind
    simp [hkind]
  | group =>
    have hkind : c.kind = .mark .openParen := hcover.kind
    simp [hkind]

theorem BeginsOperand.beginsStatement {ps : List Piece} (h : BeginsOperand ps) {c c' : Cursor}
    {qs : List Piece} (hcover : Covers c (ps ++ qs) c') : c.BeginsStatement := by
  have hkinds : ∀ k ∈ [Kind.identifier, .integer, .keyword .trueKw, .keyword .falseKw,
      .keyword .ifKw, .mark .openParen],
      k ∉ [Kind.terminator, .keyword .elseKw, .mark .closeCurly, .endOfFile] := by decide
  exact Cursor.beginsStatement_of_kind rfl (hkinds _ (h.kind_mem hcover))

/-- A conditional is an operand. -/
theorem Operand.cond {c : Conditional} (h : ReadsConditional c) :
    Operand (.keyword .ifKw :: c.pieces) [.cond c] := by
  refine ⟨.cond _, fun {stop start last} hstop hcover hends output pending opened => ?_⟩
  obtain ⟨c', hc', hread⟩ := h start.index hcover.tail hends.2
  exact ⟨[.cond c'], by simp [Node.withoutTokens, hc'],
    Advances.conditional hstop hcover hread⟩

/-- A block is read after the bracket that opens it. -/
theorem ReadsBlock.run {b : Block} (h : ReadsBlock b) {start last c' : Cursor} {rest : List Piece}
    (hcover : Covers start (.lineEnd :: Block.pieces b) last)
    (hend : Covers last (.mark .closeCurly :: rest) c') :
    ∃ b', Block.withoutTokens b' = Block.withoutTokens b ∧
      ∀ fuel, 4 * ((Block.pieces b).length + 1) ≤ fuel →
        blockFrom fuel [] start = .ok b' last.next := by
  have hbegins := h.begins hcover.tail hend.kind
  obtain ⟨b', hb', hread⟩ := h.reads hcover.tail hend.kind
  refine ⟨b', hb', fun fuel hfuel => hread fuel [] start ?_ hfuel⟩
  rw [hcover.skip_lineEnd, Cursor.skipTerminators_of_ne hbegins.1]

theorem ReadsBlock.nil : ReadsBlock [] := by
  refine ⟨fun {start last} hcover hlast => ?_, fun {start last} hcover hlast => ?_⟩
  · rw [Block.pieces] at hcover
    rw [hcover.eq_of_nil]
    exact ⟨by rw [hlast]; decide, by rw [hlast]; decide⟩
  · rw [Block.pieces] at hcover
    refine ⟨[], rfl, fun fuel done before hbefore hfuel => ?_⟩
    obtain ⟨fuel, rfl⟩ := Nat.exists_eq_add_of_le' (show 1 ≤ fuel by omega)
    rw [blockFrom]
    simp only [skipTerminators_bind, get_bind, hbefore, hcover.eq_of_nil, hlast,
      discard_advance_bind, List.append_nil]
    rfl

theorem blockFrom_statement {before start after : Cursor} {s : Statement} {fuel : Nat}
    (hbefore : before.skipTerminators = start) (hbegins : start.BeginsStatement)
    (hs : statementFrom fuel start = .ok s after) (done : List Statement) :
    blockFrom (fuel + 1) done before = blockFrom fuel (s :: done) after := by
  rw [blockFrom]
  simp only [skipTerminators_bind, get_bind, hbefore]
  refine (congrFun ?_ start).trans (bind_run hs fun s => blockFrom fuel (s :: done))
  split
  · next hk => exact absurd hk hbegins.2.1
  · next hk => exact absurd hk hbegins.2.2
  · rfl

theorem ReadsBlock.cons {s : Statement} {b : Block} (hs : ReadsStatement s) (hb : ReadsBlock b) :
    ReadsBlock (s :: b) := by
  refine ⟨fun {start last} hcover hlast => ?_, fun {start last} hcover hlast => ?_⟩
  · rw [Block.pieces] at hcover
    obtain ⟨middle, hfirst, -⟩ := hcover.exists_of_append
    exact (hs.begins hfirst).1
  · rw [Block.pieces] at hcover ⊢
    obtain ⟨middle, hfirst, hrest⟩ := hcover.exists_of_append
    obtain ⟨s', after, hs', hafter, hread⟩ := hs.reads hfirst (hb.begins hrest hlast)
    obtain ⟨b', hb', hreads⟩ := hb.reads hrest hlast
    refine ⟨s' :: b', ?_, fun fuel done before hbefore hfuel => ?_⟩
    · rw [Block.withoutTokens, Block.withoutTokens, hs', hb']
    · rw [List.length_append] at hfuel
      obtain ⟨fuel, rfl⟩ := Nat.exists_eq_add_of_le' (show 1 ≤ fuel by omega)
      have hpos : 0 < s.pieces.length := List.length_pos_iff.mpr s.pieces_ne_nil
      rw [blockFrom_statement hbefore (hs.begins hfirst) (hread fuel (by omega)),
        hreads fuel _ after hafter (by omega)]
      simp

theorem ReadsElse.nil : ReadsElse [] := by
  intro token condition onTrue start last hcover hlast
  rw [Block.elsePieces] at hcover
  refine ⟨[], rfl, fun fuel _ => ?_⟩
  rw [elseFrom]
  simp only [get_bind, hcover.eq_of_nil, ne_eq, hlast, not_false_eq_true, if_true]
  rfl

theorem ReadsElse.cond {c : Conditional} (h : ReadsConditional c) : ReadsElse [.cond c] := by
  intro token condition onTrue start last hcover hlast
  rw [Block.elsePieces] at hcover ⊢
  have helse : start.kind = .keyword .elseKw := hcover.kind
  have hskip : start.skipTerminators = start :=
    Cursor.skipTerminators_of_ne (by rw [helse]; decide)
  have hif : start.next.kind = .keyword .ifKw := hcover.tail.kind
  obtain ⟨c', hc', hread⟩ := h start.next.index hcover.tail.tail hlast
  refine ⟨[.cond c'], ?_, fun fuel hfuel => ?_⟩
  · simp only [Block.withoutTokens, Statement.withoutTokens, hc']
  · rw [List.length_cons, List.length_cons] at hfuel
    rw [elseFrom]
    simp only [get_bind, hskip, helse, ne_eq, not_true, if_false, set_bind, hif, advance_bind]
    rw [bind_run (hread fuel (by omega))]
    rfl

theorem elsePieces_of_ne {b : Block} (hne : b ≠ []) (hlone : ∀ c, b ≠ [.cond c]) :
    Block.elsePieces b =
      .keyword .elseKw :: .mark .openCurly :: .lineEnd :: Block.pieces b ++
        [.mark .closeCurly] := by
  unfold Block.elsePieces
  split
  · exact absurd rfl hne
  · next c => exact absurd rfl (hlone c)
  · simp [Block.pieces]

theorem ReadsElse.block {b : Block} (h : ReadsBlock b) (hne : b ≠ [])
    (hlone : ∀ c, b ≠ [.cond c]) : ReadsElse b := by
  intro token condition onTrue start last hcover hlast
  rw [elsePieces_of_ne hne hlone] at hcover ⊢
  obtain ⟨middle, hblock, hclose⟩ := hcover.exists_of_append
  have helse : start.kind = .keyword .elseKw := hblock.kind
  have hskip : start.skipTerminators = start :=
    Cursor.skipTerminators_of_ne (by rw [helse]; decide)
  have hopen : start.next.kind = .mark .openCurly := hblock.tail.kind
  obtain ⟨b', hb', hread⟩ := h.run hblock.tail.tail hclose
  refine ⟨b', hb', fun fuel hfuel => ?_⟩
  simp only [List.length_append, List.length_cons, List.length_nil] at hfuel
  rw [elseFrom]
  simp only [get_bind, hskip, helse, ne_eq, not_true, if_false, set_bind, hopen,
    discard_advance_bind]
  rw [bind_run (hread fuel (by omega)), hclose.tail.eq_of_nil]
  rfl

theorem ReadsConditional.mk {condition : Expr} {onTrue onFalse : Block}
    (hcondition : Operand (Expr.piecesFrom [] condition) condition) (hne : condition ≠ [])
    (htrue : ReadsBlock onTrue) (hfalse : ReadsElse onFalse) (token : Nat) :
    ReadsConditional (.mk token condition onTrue onFalse false false) := by
  intro token' start last hcover hlast
  rw [Conditional.pieces] at hcover ⊢
  obtain ⟨middle, hinside, hclose⟩ := hcover.exists_of_append
  obtain ⟨brace, hfirst, hblock⟩ := hinside.exists_of_append
  obtain ⟨condition', hc, hreadc⟩ := hcondition.condition_run hne hfirst hblock
  obtain ⟨onTrue', ht, hreadt⟩ := htrue.run hblock.tail hclose
  obtain ⟨onFalse', hf, hreadf⟩ := hfalse token' condition' onTrue' hclose.tail hlast
  refine ⟨.ofBlocks token' condition' onTrue' onFalse', ?_, fun fuel hfuel => ?_⟩
  · simp only [Conditional.ofBlocks, Conditional.withoutTokens, hc, ht, hf]
  · simp only [List.length_append, List.length_cons] at hfuel
    obtain ⟨fuel, rfl⟩ := Nat.exists_eq_add_of_le' (show 1 ≤ fuel by omega)
    rw [conditionalFrom_succ, bind_run (hreadc fuel (by omega)), bind_run (hreadt fuel (by omega)),
      hreadf fuel (by omega)]

end Grammar

end FrontEnd
