import FrontEnd.Proofs.Grammar.LineBreaks
import FrontEnd.Proofs.Printing.Blocks

/-!
# Line breaks where an operand is awaited

An expression is read over the line breaks after its operators, opening parentheses and
commas. So its lines may be broken there in any other way, also in the conditions and in
the branches of conditionals in it: the same expression is read.
-/

namespace FrontEnd.Grammar

open Token (Kind Mark Keyword Shape)

variable {c d : Cursor}

/-! What differs in the places of tokens only. -/

abbrev SameExpr (e e' : Expr) : Prop := Expr.withoutTokens e = Expr.withoutTokens e'

abbrev SameConditional (b b' : Conditional) : Prop := b.withoutTokens = b'.withoutTokens

abbrev SameBlock (b b' : Block) : Prop := Block.withoutTokens b = Block.withoutTokens b'

abbrev SameStatement (s s' : Statement) : Prop := s.withoutTokens = s'.withoutTokens

theorem SameBlock.cons {s s' : Statement} {b b' : Block} (hs : SameStatement s s')
    (hb : SameBlock b b') : SameBlock (s :: b) (s' :: b') := by
  show Block.withoutTokens (s :: b) = Block.withoutTokens (s' :: b')
  rw [Block.withoutTokens, Block.withoutTokens, hs, hb]

theorem SameBlock.reverse {b b' : Block} (h : SameBlock b b') : SameBlock b.reverse b'.reverse := by
  show Block.withoutTokens b.reverse = Block.withoutTokens b'.reverse
  rw [Block.withoutTokens_eq_map, Block.withoutTokens_eq_map, List.map_reverse, List.map_reverse,
    ← Block.withoutTokens_eq_map, ← Block.withoutTokens_eq_map, h]

theorem sameStatement_cond {b b' : Conditional} (h : SameConditional b b') :
    SameStatement (.cond b) (.cond b') := by
  show Statement.withoutTokens _ = Statement.withoutTokens _
  rw [Statement.withoutTokens, Statement.withoutTokens, h]

theorem sameStatement_eval (i j : Nat) {e e' : Expr} (h : SameExpr e e') :
    SameStatement (.eval i e) (.eval j e') := by
  show Statement.withoutTokens _ = Statement.withoutTokens _
  rw [Statement.withoutTokens, Statement.withoutTokens, h]

/-- Where two readers of an expression stop: at the same token, if it ends as the expressions of
statements do. -/
def StopsAligned (stop : Option Kind) (c d : Cursor) : Prop := IsEnd stop → Aligned c d

/-- What the readers with enough fuel give of other line breaks if these ones give something. -/
structure Readers.Followed (r : Readers) : Prop where
  expression : ∀ stop {p q s c d}, p.withoutTokens = q.withoutTokens → Lined s c d →
    (s = .awaiting → p.isOpen = true) →
    Follows SameExpr (StopsAligned stop)
      (r.expression stop p) (fun fuel => (readers fuel).expression stop q) c d
  conditional : ∀ i j {c d}, Aligned c d →
    Follows SameConditional Aligned
      (r.conditional i) (fun fuel => (readers fuel).conditional j) c d
  block : ∀ {done done' c d}, SameBlock done done' → Aligned c d →
    Follows SameBlock Aligned
      (r.block done) (fun fuel => (readers fuel).block done') c d
  statement : ∀ {c d}, Aligned c d →
    Follows SameStatement Aligned
      r.statement (fun fuel => (readers fuel).statement) c d

theorem awaits_of_ofCompound? {m : Mark} {o : Operator} (h : Operator.ofCompound? m = some o) :
    awaits (.mark m) = false := by
  cases m <;> first | rfl | cases h

theorem shape_of_keyword {t : Token} {k : Keyword} (h : t.kind = .keyword k) :
    t.shape = .keyword k := by
  obtain ⟨shape, text, span⟩ := t
  cases shape with
  | keyword k' =>
    cases h
    rfl
  | numeral n =>
    obtain ⟨number, suffix⟩ := n
    cases number <;> cases h
  | _ => cases h

theorem isOpen_congr {p q : Progress} (h : p.withoutTokens = q.withoutTokens) :
    p.isOpen = q.isOpen := by
  rw [← Progress.isOpen_withoutTokens, h, Progress.isOpen_withoutTokens]

/-- What ends here ends at the same token of the other list. -/
theorem follows_endExpression {stop : Option Kind} {p q : Progress}
    (hpq : p.withoutTokens = q.withoutTokens) (h : Aligned c d) :
    Follows SameExpr (StopsAligned stop)
      (endExpression stop p) (fun _ => endExpression stop q) c d := by
  intro e c' he
  obtain ⟨hopen, hfinish, hstop, rfl⟩ := endExpression_eq_ok_iff.mp he
  obtain ⟨e', he', halike⟩ := Progress.finish_alike hpq hfinish
  refine ⟨e', d.afterEnd stop, 0, fun _ _ => endExpression_eq_ok_iff.mpr
    ⟨(isOpen_congr hpq).symm.trans hopen, he', ?_, rfl⟩, halike, fun hend => ?_⟩
  · rw [← h.kind]
    exact hstop
  · unfold Cursor.afterEnd
    rw [← h.kind]
    split
    · next hkind =>
      rcases hkind with hkind | hkind
      · exact h.next hkind (by decide)
      · rcases hend with rfl | rfl
        · cases hkind
        · exact h.next (Option.some.inj hkind).symm (by decide)
    · exact h

/-- What an operand is awaited after leaves something open. -/
theorem isOpen_of_pending {p : Progress} (hwants : p.wantsOperand = true) (h : p.pending ≠ []) :
    p.isOpen = true := by
  simp [Progress.isOpen, Progress.isStarted, hwants, h]

theorem isOpen_of_opening {p p' : Progress} {o : Pending} {justOpened : Bool}
    (h : p.opening o justOpened = .ok p') : p'.isOpen = true := by
  unfold Progress.opening at h
  split at h
  · cases h
    exact isOpen_of_pending rfl (List.cons_ne_nil _ _)
  · cases h

theorem isOpen_of_operator {p p' : Progress} {token : Nat} {o : Operator}
    (h : p.operator token o = .ok p') : p'.isOpen = true := by
  unfold Progress.operator at h
  dsimp only at h
  split at h
  · cases h
  · cases h
    exact isOpen_of_pending rfl (List.cons_ne_nil _ _)

theorem isOpen_of_comma {p p' : Progress} (h : p.comma = .ok p') : p'.isOpen = true := by
  unfold Progress.comma at h
  split at h
  · cases h
  · split at h
    · cases h
      exact isOpen_of_pending rfl (List.cons_ne_nil _ _)
    · cases h

theorem isOpen_of_feed {p p' : Progress} {index : Nat} {shape : Shape}
    (hshape : awaitsOperand shape = true) (h : p.feed index shape = .ok p') : p'.isOpen = true := by
  unfold Progress.feed at h
  split at h
  · cases hshape
  · cases hshape
  · cases hshape
  · cases hshape
  · exact isOpen_of_opening h
  · exact isOpen_of_comma h
  · cases hshape
  · split at h
    · exact isOpen_of_operator h
    · cases h
  · cases h

theorem awaitsOperand_of_after {s : Standing} {shape : Shape} (h : s.after shape = .awaiting) :
    awaitsOperand shape = true := by
  by_contra hshape
  rw [Bool.not_eq_true, awaitsOperand_eq] at hshape
  exact Standing.after_ne_awaiting hshape h

/-- A line break says nothing where an operand is missing. -/
theorem Readers.expression_skip (r : Readers) (stop : Option Kind) {p : Progress}
    (hkind : c.kind = .terminator) (hopen : p.isOpen = true) :
    r.turn.expression stop p c = r.expression stop p c.next := by
  show (if c.kind = .terminator ∧ p.isOpen = true then _ else _ : Parse Expr) c = _
  rw [if_pos ⟨hkind, hopen⟩]
  rfl

namespace Readers.Followed

variable {r : Readers}

/-- A turn of the loop at the same token of both lists. -/
theorem expression_aligned (h : r.Followed) (stop : Option Kind) {p q : Progress}
    (hpq : p.withoutTokens = q.withoutTokens) (hc : Aligned c d) :
    Follows SameExpr (StopsAligned stop)
      (r.turn.expression stop p) (fun fuel => (readers fuel).turn.expression stop q) c d := by
  refine .get_bind ?_
  rw [← hc.kind, ← isOpen_congr hpq, ← hc.shape]
  split
  · next hend =>
    obtain ⟨s, hs, hnext⟩ := hc.next hend.1 (by decide)
    exact .skip_bind (h.expression stop hpq hnext fun hawaiting => absurd hawaiting hs)
  · split
    · exact follows_endExpression hpq hc
    · next hgoes =>
      have hkind := kind_of_not_endsExpression hgoes
      obtain ⟨s, hs, hlined⟩ := id hc
      -- A token that is read alone.
      have hfeed : ∀ {shape}, c.current.shape = shape →
          Follows SameExpr (StopsAligned stop)
            (do
              let p' ← orComplain (p.feed c.index shape)
              discard advance
              r.expression stop p')
            (fun fuel => do
              let q' ← orComplain (q.feed d.index shape)
              discard advance
              (readers fuel).expression stop q') c d := by
        intro shape hshape
        refine .orComplain_bind ?_ fun p' q' hp' hpq' => .skip_bind ?_
        · rw [← Progress.feed_withoutTokens, hpq, Progress.feed_withoutTokens]
        · refine h.expression stop hpq' (hlined.next hs hkind) fun hawaiting => ?_
          rw [hshape] at hawaiting
          exact isOpen_of_feed (awaitsOperand_of_after hawaiting) hp'
      split
      · next hif =>
        have hwants : p.wantsOperand = q.wantsOperand := by
          rw [← p.wantsOperand_withoutTokens, hpq, q.wantsOperand_withoutTokens]
        have hnext : Aligned c.next d.next :=
          hc.next (k := .keyword .ifKw) (congrArg Shape.kind hif) (by decide)
        rw [← hwants]
        refine .check rfl fun _ => .skip_bind ?_
        refine (h.conditional c.index d.index hnext).bind fun b b' c₁ d₁ hb hc₁ =>
          .orComplain_bind ?_ fun p' q' _ hpq' => ?_
        · rw [← Progress.operand_withoutTokens, ← Progress.operand_withoutTokens, hpq,
            Node.withoutTokens, Node.withoutTokens, hb]
        · obtain ⟨s₁, hs₁, hlined₁⟩ := hc₁
          exact h.expression stop hpq' hlined₁ fun hawaiting => absurd hawaiting hs₁
      · next path hshape =>
        have hname : c.kind = .identifier := kind_of_identifier hshape
        rw [← hc.nextKind hname (by decide)]
        split
        · next hparen =>
          refine .orComplain_bind ?_ fun p' q' hp' hpq' => .skip_bind (.skip_bind ?_)
          · rw [← Progress.opening_withoutTokens, hpq, ← Progress.opening_withoutTokens]
            rfl
          · obtain ⟨s₁, hs₁, hlined₁⟩ := hc.next hname (by decide)
            have hnextKind := Cursor.goesOn (c.kind_next.trans hparen) (by decide)
            exact h.expression stop hpq' (hlined₁.next hs₁ hnextKind)
              fun _ => isOpen_of_opening hp'
        · exact hfeed hshape
      · exact hfeed rfl

/-- A turn of the loop, over the line breaks before it. -/
theorem expression_turn (h : r.Followed) (stop : Option Kind) {p q : Progress} {s : Standing}
    (hpq : p.withoutTokens = q.withoutTokens) (hlined : Lined s c d)
    (hs : s = .awaiting → p.isOpen = true) :
    Follows SameExpr (StopsAligned stop)
      (r.turn.expression stop p) (fun fuel => (readers fuel).expression stop q) c d := by
  -- On how many tokens of the other list are left: inserted line breaks are read there only.
  induction hleft : d.rest.length using Nat.strong_induction_on generalizing d with
  | _ left ih =>
  obtain ⟨htokens, hends⟩ := id hlined
  cases htokens with
  | keep hsame hrest =>
    exact .of_succ (h.expression_aligned stop hpq (.of_same hsame hrest hends))
  | insert hb htokens =>
    have hd := htokens.exists_endOfFile hends
    have hskip := fun fuel => (readers fuel).expression_skip stop
      (congrArg Shape.kind hb) ((isOpen_congr hpq).symm.trans (hs rfl))
    refine .of_succ (.of_eq rfl hskip ?_)
    have hnext := Cursor.next_eq_rest hd
    refine ih d.next.rest.length ?_ ⟨hnext ▸ htokens, hends⟩ rfl
    rw [← hleft, ← hnext]
    exact Nat.lt_succ_self _
  | delete hb htokens =>
    have hkind : c.kind = .terminator := congrArg Shape.kind hb
    have hrest := exists_endOfFile_rest hends (Cursor.goesOn hkind (by decide))
    have hnext := Cursor.next_eq_rest hrest
    refine .of_eq (r.expression_skip stop hkind (hs rfl)) (fun _ => rfl) ?_
    exact h.expression stop hpq ⟨hnext ▸ htokens, hnext ▸ hrest⟩ hs

/-- What may not be empty. -/
theorem value (h : r.Followed) (stop : Option Kind) (hc : Aligned c d) :
    Follows SameExpr (StopsAligned stop)
      (r.value stop) (fun fuel => (readers fuel).value stop) c d := by
  obtain ⟨s, hs, hlined⟩ := hc
  refine .get_bind ((h.expression stop rfl hlined fun hawaiting => absurd hawaiting hs).bind
    fun e e' c₁ d₁ he hc₁ => ?_)
  have hempty : e.isEmpty = e'.isEmpty := by
    rw [← List.isEmpty_map (f := Node.withoutTokens), ← Expr.withoutTokens_eq_map, he,
      Expr.withoutTokens_eq_map, List.isEmpty_map]
  rw [← hempty]
  exact .check rfl fun _ => .pure hc₁ he

theorem value_aligned (h : r.Followed) {stop : Option Kind} (hstop : IsEnd stop)
    (hc : Aligned c d) :
    Follows SameExpr Aligned
      (r.value stop) (fun fuel => (readers fuel).value stop) c d :=
  (h.value stop hc).mono fun _ _ hstops => hstops hstop

theorem conditional_turn (h : r.Followed) (i j : Nat) (hc : Aligned c d) :
    Follows SameConditional Aligned
      (r.turn.conditional i) (fun fuel => (readers fuel).turn.conditional j) c d := by
  refine (h.value_aligned (.inr rfl) hc).bind fun condition condition' c₁ d₁ hcondition hc₁ =>
    (h.block rfl hc₁).bind fun onTrue onTrue' c₂ d₂ honTrue hc₂ => .get_bind ?_
  have hbranches : ∀ {onFalse onFalse'},
      SameBlock onFalse onFalse' → SameConditional (.ofBlocks i condition onTrue onFalse)
        (.ofBlocks j condition' onTrue' onFalse') := by
    intro onFalse onFalse' honFalse
    simp only [SameConditional, Conditional.ofBlocks, Conditional.withoutTokens, hcondition, honTrue,
      honFalse]
  have hskipped := hc₂.skipTerminators
  dsimp only
  rw [← hskipped.kind]
  split
  · exact .pure hc₂ (hbranches rfl)
  · next helse =>
    have hnext := hskipped.next (not_not.mp helse) (by decide)
    refine .set_bind (.get_bind ?_)
    rw [← hnext.kind]
    split
    · next hif =>
      refine .advance_bind ((h.conditional _ _ (hnext.next hif (by decide))).map fun b b' hb => ?_)
      exact hbranches (.cons (sameStatement_cond hb) rfl)
    · next hcurly =>
      exact .skip_bind ((h.block rfl (hnext.next hcurly (by decide))).map fun _ _ => hbranches)
    · exact .of_error rfl

theorem block_turn (h : r.Followed) {done done' : List Statement}
    (hdone : SameBlock done done') (hc : Aligned c d) :
    Follows SameBlock Aligned
      (r.turn.block done) (fun fuel => (readers fuel).turn.block done') c d := by
  have hskipped := hc.skipTerminators
  refine .skipTerminators_bind (.get_bind ?_)
  rw [← hskipped.kind]
  split
  · next hclose =>
    exact .skip_bind (.pure (hskipped.next hclose (by decide)) (SameBlock.reverse hdone))
  · exact .of_error rfl
  · exact (h.statement hskipped).bind fun s s' c₁ d₁ hs hc₁ => h.block (.cons hs hdone) hc₁

/-- A statement that goes on up to the end of its line. -/
theorem end_statement {s s' : Statement} (hs : SameStatement s s') (hc : Aligned c d) :
    Follows SameStatement Aligned (do endStatement; return s) (fun _ => do endStatement; return s')
      c d :=
  (follows_endStatement hc).bind fun _ _ _ _ _ hc' => .pure hc' hs

theorem evaluation (h : r.Followed) (i j : Nat) (hc : Aligned c d) :
    Follows SameStatement Aligned (r.evaluation i) (fun fuel => (readers fuel).evaluation j) c d :=
  (h.value_aligned (.inl rfl) hc).map fun _ _ => sameStatement_eval i j

theorem declaration (h : r.Followed) (hc : Aligned c d) :
    Follows SameStatement Aligned r.declaration (fun fuel => (readers fuel).declaration) c d := by
  refine (follows_simpleIdentifier hc).bind fun (i, name) (j, name') c₁ d₁ hname hc₁ =>
    (follows_expect hc₁ (.mark .colon) (by decide)).discard_bind fun c₂ d₂ hc₂ => .get_bind ?_
  obtain rfl : name = name' := hname
  have hdeclare : ∀ type {e e'}, SameExpr e e' →
      SameStatement (.declare i name type e none) (.declare j name type e' none) := by
    intro type e e' he
    simp only [SameStatement, Statement.withoutTokens, he]
  rw [← hc₂.kind]
  split
  · next hassign =>
    exact .skip_bind ((h.value_aligned (.inl rfl) (hc₂.next hassign (by decide))).map
      fun _ _ => hdeclare none)
  · refine (follows_typeName hc₂).bind fun type type' c₃ d₃ htype hc₃ => .get_bind ?_
    subst htype
    rw [← hc₃.kind]
    split
    · next hassign =>
      exact .skip_bind ((h.value_aligned (.inl rfl) (hc₃.next hassign (by decide))).map
        fun _ _ => hdeclare (some type))
    · exact end_statement (hdeclare (some type) rfl) hc₃
  · exact end_statement (hdeclare none rfl) hc₂
  · exact end_statement (hdeclare none rfl) hc₂
  · exact end_statement (hdeclare none rfl) hc₂
  · exact .of_error rfl

theorem statement_turn (h : r.Followed) (hc : Aligned c d) :
    Follows SameStatement Aligned r.turn.statement (fun fuel => (readers fuel).turn.statement)
      c d := by
  refine .get_bind ?_
  dsimp only
  rw [← hc.kind]
  split
  · next hname =>
    have hnext := hc.next hname (by decide)
    have hpath : c.current.path = d.current.path := by
      unfold Token.path
      rw [hc.shape]
    have hassign : ∀ {e e'}, SameExpr e e' → SameStatement
        (.assign c.index ⟨c.index, c.current.path, none⟩ e)
        (.assign d.index ⟨d.index, d.current.path, none⟩ e') := by
      intro e e' he
      simp only [SameStatement, Statement.withoutTokens, he, hpath]
    rw [← hc.nextKind hname (by decide)]
    split
    · exact h.declaration hc
    · next hmark =>
      have hthen := hnext.next (c.kind_next.trans hmark) (by decide)
      exact .skip_bind (.skip_bind ((h.value_aligned (.inl rfl) hthen).map fun _ _ => hassign))
    · split
      · next o ho =>
        have hmark : c.next.kind ≠ .endOfFile ∧ awaits c.next.kind = false := by
          rw [Cursor.kind_next]
          split at ho
          · next m hm =>
            rw [hm]
            exact ⟨nofun, awaits_of_ofCompound? ho⟩
          · cases ho
        refine .skip_bind (.advance_bind ((h.value_aligned (.inl rfl) (hnext.next rfl hmark)).map
          fun e e' he => hassign ?_))
        simp only [SameExpr, List.cons_append, Expr.withoutTokens_cons, Expr.withoutTokens_append,
          Node.withoutTokens, hpath, he]
      · exact h.evaluation _ _ hc
  · next hreturn =>
    obtain ⟨s, hs, hlined⟩ := hc.next hreturn (by decide)
    have hvalue := (h.expression none (p := .start) rfl hlined fun hawaiting =>
      absurd hawaiting hs).mono fun _ _ hstops => hstops (.inl rfl)
    refine .skip_bind (hvalue.map fun e e' he => ?_)
    simp only [SameStatement, Statement.withoutTokens, he]
  · refine (h.value_aligned (.inl rfl) hc).bind fun e e' c₁ d₁ he hc₁ => ?_
    split
    · next branch =>
      obtain ⟨branch', rfl, hbranch⟩ := Expr.eq_cond_of_withoutTokens he.symm
      exact .pure hc₁ (sameStatement_cond hbranch.symm)
    · next hlone =>
      split
      · next branch' =>
        obtain ⟨branch, rfl, -⟩ := Expr.eq_cond_of_withoutTokens he
        exact absurd rfl (hlone branch)
      · exact .pure hc₁ (sameStatement_eval _ _ he)
  · next hwhile =>
    have hnext := hc.next hwhile (by decide)
    refine .skip_bind (.get_bind ?_)
    rw [← hnext.kind]
    split
    · next hcurly =>
      refine .skip_bind ((h.block rfl (hnext.next hcurly (by decide))).map fun b b' hb => ?_)
      simp only [SameStatement, Statement.withoutTokens, Expr.withoutTokens_cons, Node.withoutTokens,
        Expr.withoutTokens_nil, hb]
    · refine (h.value_aligned (.inr rfl) hnext).bind fun e e' c₁ d₁ he hc₁ =>
        (h.block rfl hc₁).map fun b b' hb => ?_
      simp only [SameStatement, Statement.withoutTokens, he, hb]
  · next hbreak =>
    have hnext : Lined .afterBreak c.next d.next := by
      obtain ⟨s, hs, hlined⟩ := id hc
      have hlined := hlined.next hs (Cursor.goesOn hbreak (by decide))
      rwa [shape_of_keyword hbreak] at hlined
    refine .skip_bind ((follows_exitAmount hnext).bind fun amount amount' c₁ d₁ hamount hc₁ => ?_)
    subst hamount
    refine end_statement ?_ hc₁
    simp only [SameStatement, Statement.withoutTokens]
  · next hcontinue =>
    refine .skip_bind (end_statement ?_ (hc.next hcontinue (by decide)))
    simp only [SameStatement, Statement.withoutTokens]
  · exact h.evaluation _ _ hc

theorem turn (h : r.Followed) : r.turn.Followed where
  expression stop := h.expression_turn stop
  conditional i j _ _ hc := .of_succ (h.conditional_turn i j hc)
  block hdone hc := .of_succ (h.block_turn hdone hc)
  statement hc := .of_succ (h.statement_turn hc)

end Readers.Followed

/-- What is read with some fuel is read of other line breaks with enough fuel. -/
theorem readers_followed (fuel : Nat) : (readers fuel).Followed := by
  induction fuel with
  | zero =>
    constructor
    · intro stop p q s c d _ _ _
      exact .of_failUnexpected
    · intro i j c d _
      exact .of_failUnexpected
    · intro done done' c d _ _
      exact .of_failUnexpected
    · intro c d _
      exact .of_failUnexpected
  | succ fuel ih => exact ih.turn

/-- A cursor with an end of the file to come stands in a file. -/
theorem Cursor.exists_within (h : ∃ t ∈ c.current :: c.rest, t.kind = .endOfFile) :
    ∃ tokens last, c.Within tokens last := by
  obtain ⟨t, ht, hend⟩ := h
  obtain ⟨k, hk⟩ := List.getElem?_of_mem ht
  refine ⟨List.replicate c.index c.current ++ c.current :: c.rest, c.index + k, ?_,
    Nat.le_add_right _ _, t, ?_, hend⟩
  · exact List.drop_left' List.length_replicate
  · rw [List.getElem?_append_right (by simp), List.length_replicate, Nat.add_sub_cancel_left]
    exact hk

/-- What is read with enough fuel is read with that which the readers take. -/
theorem valueExpression_of_least {stop : Option Kind} (hstop : stop ≠ some .endOfFile)
    (h : ∃ t ∈ c.current :: c.rest, t.kind = .endOfFile) {least : Nat}
    {result : EStateM.Result Fault Cursor Expr}
    (hrun : ∀ fuel, least ≤ fuel → (readers fuel).value stop c = result) :
    valueExpression stop c = result := by
  obtain ⟨tokens, last, hc⟩ := Cursor.exists_within h
  have hfuel := hc.fuel_ge
  have halike := Readers.alike_readers tokens last (readers 0) (Nat.le_max_right least c.fuel)
  rw [← readers_eq_iterate] at halike
  rw [valueExpression_eq, ← (halike.value hstop hc (by omega)).same]
  exact hrun _ (Nat.le_max_left least c.fuel)

/-- **Line breaks where an operand is awaited say nothing.** If tokens are read as an expression, so
are others that differ from them only in line breaks after operators, opening parentheses and
commas, and as the same one but for the places of tokens: with the same operators and the same
calls, each of the same number of arguments. -/
theorem valueExpression_rebroken {stop : Option Kind} (hstop : stop ≠ some .endOfFile)
    {c d c' : Cursor} {e : Expr}
    (h : Rebroken .plain (c.current :: c.rest) (d.current :: d.rest))
    (hends : ∃ t ∈ c.current :: c.rest, t.kind = .endOfFile)
    (he : valueExpression stop c = .ok e c') :
    ∃ e' d', valueExpression stop d = .ok e' d' ∧
      Expr.withoutTokens e = Expr.withoutTokens e' ∧ (IsEnd stop → Aligned c' d') := by
  rw [valueExpression_eq] at he
  obtain ⟨e', d', least, hrun, halike, hstops⟩ :=
    (readers_followed c.fuel).value stop ⟨.plain, nofun, h, hends⟩ e c' he
  exact ⟨e', d', valueExpression_of_least hstop (h.exists_endOfFile hends) hrun, halike, hstops⟩

/-- The tokens of `a && b { f() }`, with a terminator after each token that awaits an operand. -/
def brokenTokens : List Token :=
  [⟨.identifier ["a"], "a", ⟨3, 4⟩⟩, ⟨.mark .and, "&&", ⟨5, 7⟩⟩, ⟨.terminator, "\n", ⟨7, 8⟩⟩,
    ⟨.identifier ["b"], "b", ⟨8, 9⟩⟩, ⟨.mark .openCurly, "\x7b", ⟨10, 11⟩⟩,
    ⟨.identifier ["f"], "f", ⟨12, 13⟩⟩, ⟨.mark .openParen, "(", ⟨13, 14⟩⟩,
    ⟨.terminator, "\n", ⟨14, 15⟩⟩, ⟨.mark .closeParen, ")", ⟨15, 16⟩⟩,
    ⟨.mark .closeCurly, "\x7d", ⟨17, 18⟩⟩, ⟨.endOfFile, "EOF", ⟨18, 18⟩⟩]

theorem valueExpression_rebroken_condition :
    let start : Token := ⟨.keyword .ifKw, "if", ⟨0, 2⟩⟩
    let joined := brokenTokens.filter fun t => t.shape ≠ .terminator
    (∃ e c', valueExpression none ⟨0, start, brokenTokens⟩ = .ok e c' ∧
      ∃ e' d', valueExpression none ⟨0, start, joined⟩ = .ok e' d' ∧
        Expr.withoutTokens e = Expr.withoutTokens e' ∧ (IsEnd none → Aligned c' d')) := by
  intro start joined
  have hrebroken : Rebroken .plain (start :: brokenTokens) (start :: joined) :=
    .keep ⟨rfl, rfl⟩ <| .keep ⟨rfl, rfl⟩ <| .keep ⟨rfl, rfl⟩ <| .delete rfl <| .keep ⟨rfl, rfl⟩ <|
      .keep ⟨rfl, rfl⟩ <| .keep ⟨rfl, rfl⟩ <| .keep ⟨rfl, rfl⟩ <| .delete rfl <|
      .keep ⟨rfl, rfl⟩ <| .keep ⟨rfl, rfl⟩ <| .keep ⟨rfl, rfl⟩ .nil
  exact ⟨_, _, rfl, valueExpression_rebroken (c := ⟨0, start, brokenTokens⟩) (by decide) hrebroken
    ⟨⟨.endOfFile, "EOF", ⟨18, 18⟩⟩, by decide, rfl⟩ rfl⟩

end FrontEnd.Grammar
