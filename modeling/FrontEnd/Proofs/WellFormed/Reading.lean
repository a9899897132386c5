import FrontEnd.Proofs.WellFormed.Cursors
import FrontEnd.Proofs.WellFormed.Pending

/-!
# What is read is well formed

All readers of expressions, conditionals, blocks and statements stay inside the file, and
give trees whose tokens are tokens of the file and whose expressions are complete.
-/

namespace FrontEnd.Grammar

open Token (Kind Mark Keyword)

variable {α β : Type} {tokens : List Token} {last : Nat} {c : Cursor}

/-- A complaint is about the current token; otherwise what is read next starts there too. -/
theorem yields_orComplain_bind {Q : β → Prop} {r : Except Complaint α} {f : α → Parse β}
    (hc : c.Within tokens last) (h : ∀ a, r = .ok a → Yields tokens last Q (f a) c) :
    Yields tokens last Q (orComplain r >>= f) c := by
  cases r with
  | ok a => exact Yields.of_reaches hc.reaches rfl (h a rfl)
  | error e =>
    refine Yields.bind (P := fun _ => False) (Yields.get_bind (Yields.throw hc ?_))
      fun _ _ _ h => h.elim
    rw [token_complaint]
    exact hc.le

theorem yields_endExpression {p : Progress} (hc : c.Within tokens last) (hp : p.Balanced (· ≤ last))
    {stop : Option Kind} (hstop : stop ≠ some .endOfFile) :
    Yields tokens last (Expr.OptionWellFormed (· ≤ last)) (endExpression stop p) c := by
  refine Yields.get_bind ?_
  extract_lets closed
  refine Yields.check (yields_failExpected hc _) fun hopen => ?_
  have hfinish := hp.finish hopen
  unfold closed
  split
  · next paren heq =>
    rw [heq] at hfinish
    exact Yields.throw hc hfinish
  · next e heq =>
    rw [heq] at hfinish
    extract_lets done checked
    have hchecked : Yields tokens last (Expr.OptionWellFormed (· ≤ last)) (checked ()) c := by
      unfold checked
      split
      · next hend =>
        have hkind : c.kind ≠ .endOfFile := by
          intro heof
          rw [heof] at hend
          exact hend.elim nofun hstop
        exact Yields.skip_bind hc hkind (Yields.pure (hc.next hkind).within hfinish)
      · exact Yields.pure hc hfinish
    split
    · exact Yields.check (yields_failExpected hc _) fun _ => hchecked
    · exact hchecked

theorem yields_nonEmpty {T : Nat → Prop} {x : Parse Expr} (hc : c.Within tokens last)
    (h : Yields tokens last (Expr.OptionWellFormed T) x c) :
    Yields tokens last (Expr.WellFormed T) (nonEmpty x) c := by
  refine Yields.get_bind (h.bind fun e c' hc' he => ?_)
  refine Yields.check (Yields.throw hc' hc.le) fun hne => Yields.pure hc' (he.of_ne_nil ?_)
  exact fun hnil => hne (List.isEmpty_iff.mpr hnil)

/-- What all readers give with a certain amount of fuel. -/
structure YieldsWellFormed (tokens : List Token) (last fuel : Nat) : Prop where
  expression : ∀ stop {p c}, stop ≠ some Kind.endOfFile → c.Within tokens last →
    p.Balanced (· ≤ last) →
    Yields tokens last (Expr.OptionWellFormed (· ≤ last)) (expressionFrom fuel stop p) c
  conditional : ∀ {token c}, c.Within tokens last → token ≤ last →
    Yields tokens last (Conditional.WellFormed (· ≤ last)) (conditionalFrom fuel token) c
  block : ∀ {done c}, c.Within tokens last → (∀ s ∈ done, s.WellFormed (· ≤ last)) →
    Yields tokens last (Block.WellFormed (· ≤ last)) (blockFrom fuel done) c
  statement : ∀ {c}, c.Within tokens last →
    Yields tokens last (Statement.WellFormed (· ≤ last)) (statementFrom fuel) c

/-- Where an expression goes on the file does not end. -/
theorem kind_of_not_endsExpression {stop : Option Kind}
    (h : ¬endsExpression stop c.kind = true) : c.kind ≠ .endOfFile := by
  intro heof
  rw [heof] at h
  exact h (by simp [endsExpression])

namespace YieldsWellFormed

variable {fuel : Nat}

theorem expressionFrom_succ (h : YieldsWellFormed tokens last fuel) (stop : Option Kind)
    {p : Progress} (hstop : stop ≠ some .endOfFile) (hc : c.Within tokens last)
    (hp : p.Balanced (· ≤ last)) :
    Yields tokens last (Expr.OptionWellFormed (· ≤ last)) (expressionFrom (fuel + 1) stop p) c := by
  rw [expressionFrom]
  refine Yields.get_bind ?_
  split
  · next hend =>
    have hkind := Cursor.goesOn hend.1 (by decide)
    exact Yields.skip_bind hc hkind (h.expression stop hstop (hc.next hkind).within hp)
  · split
    · exact yields_endExpression hc hp hstop
    · next hgoes =>
      have hkind := kind_of_not_endsExpression hgoes
      have hnext := (hc.next hkind).within
      split
      · -- A conditional is an operand.
        extract_lets go
        refine Yields.check (Yields.throw hc ?_) fun _ => Yields.skip_bind hc hkind ?_
        · rw [token_complaint]
          exact hc.le
        · exact (h.conditional hnext hc.le).bind fun branch _ hc₁ hbranch =>
            yields_orComplain_bind hc₁ fun q hq =>
              h.expression stop hstop hc₁ (hp.operand (n := .cond branch) hbranch rfl hq)
      · next path hshape =>
        split
        · -- The name of a call and its parenthesis are read together.
          next hparen =>
          have hnextKind := Cursor.goesOn (c.kind_next.trans hparen) (by decide)
          have htokens : ∀ t ∈ [c.index, c.index + 1], t ≤ last :=
            List.forall_mem_cons.mpr ⟨hc.le, List.forall_mem_singleton.mpr (hc.index_lt hkind)⟩
          refine yields_orComplain_bind hc fun q hq => Yields.skip_bind hc hkind <|
            Yields.skip_bind hnext hnextKind <|
            h.expression stop hstop (hnext.next hnextKind).within ?_
          exact hp.opening (q := .call c.index path (c.index + 1) 0) htokens rfl
            (fun _ => ⟨_, _, _, rfl⟩) hq
        · exact yields_orComplain_bind hc fun q hq => Yields.skip_bind hc hkind <|
            h.expression stop hstop hnext (hp.feed hc.le hq)
      · exact yields_orComplain_bind hc fun q hq => Yields.skip_bind hc hkind <|
          h.expression stop hstop hnext (hp.feed hc.le hq)

theorem conditionalFrom_succ (h : YieldsWellFormed tokens last fuel) {token : Nat}
    (hc : c.Within tokens last) (ht : token ≤ last) :
    Yields tokens last (Conditional.WellFormed (· ≤ last)) (conditionalFrom (fuel + 1) token) c := by
  rw [conditionalFrom]
  have hyields := yields_nonEmpty hc (h.expression (some (.mark .openCurly)) (by decide) hc .start)
  refine hyields.bind fun condition c₁ hc₁ hcondition =>
    (h.block hc₁ (List.forall_mem_nil _)).bind fun onTrue c₂ hc₂ honTrue => Yields.get_bind ?_
  extract_lets start
  have hskipped : c₂.Reaches tokens last start := hc₂.skipTerminators
  have hstart := hskipped.within
  have hbranches : ∀ {onFalse}, Block.WellFormed (· ≤ last) onFalse →
      (Conditional.ofBlocks token condition onTrue onFalse).WellFormed (· ≤ last) :=
    fun honFalse => ⟨ht, hcondition, honTrue, honFalse⟩
  split
  · exact Yields.pure hc₂ (hbranches trivial)
  · next helse =>
    have helse := Cursor.goesOn (not_not.mp helse) (by decide)
    have hnext := hstart.next helse
    refine Yields.of_reaches (hskipped.trans hnext) rfl (Yields.get_bind ?_)
    split
    · next hif =>
      have hif := Cursor.goesOn hif (by decide)
      exact Yields.advance_bind hnext.within hif <|
        (h.conditional (hnext.within.next hif).within hnext.within.le).bind
          fun branch _ hc₃ hbranch => Yields.pure hc₃ (hbranches ⟨hbranch, trivial⟩)
    · next hcurly =>
      have hcurly := Cursor.goesOn hcurly (by decide)
      exact Yields.skip_bind hnext.within hcurly <|
        (h.block (hnext.within.next hcurly).within (List.forall_mem_nil _)).bind
          fun _ _ hc₃ honFalse => Yields.pure hc₃ (hbranches honFalse)
    · exact yields_failExpected hnext.within _

theorem blockFrom_succ (h : YieldsWellFormed tokens last fuel) {done : List Statement}
    (hc : c.Within tokens last) (hdone : ∀ s ∈ done, s.WellFormed (· ≤ last)) :
    Yields tokens last (Block.WellFormed (· ≤ last)) (blockFrom (fuel + 1) done) c := by
  rw [blockFrom]
  refine (yields_skipTerminators hc).bind fun _ c₁ hc₁ _ => Yields.get_bind ?_
  split
  · next hclose =>
    have hclose := Cursor.goesOn hclose (by decide)
    refine Yields.skip_bind hc₁ hclose (Yields.pure (hc₁.next hclose).within ?_)
    exact Block.wellFormed_iff.mpr fun s hs => hdone s (List.mem_reverse.mp hs)
  · exact yields_failUnexpected hc₁
  · exact (h.statement hc₁).bind fun s _ hc₂ hs =>
      h.block hc₂ (List.forall_mem_cons.mpr ⟨hs, hdone⟩)

theorem value (h : YieldsWellFormed tokens last fuel) (stop : Option Kind)
    (hstop : stop ≠ some .endOfFile) (hc : c.Within tokens last) :
    Yields tokens last (Expr.WellFormed (· ≤ last)) (nonEmpty (expressionFrom fuel stop .start)) c :=
  yields_nonEmpty hc (h.expression stop hstop hc .start)

/-- A statement that is an expression. -/
theorem eval (h : YieldsWellFormed tokens last fuel) (hc : c.Within tokens last) {token : Nat}
    (ht : token ≤ last) :
    Yields tokens last (Statement.WellFormed (· ≤ last)) (do
      let value ← nonEmpty (expressionFrom fuel none .start)
      return .eval token value) c :=
  (h.value none (by decide) hc).bind fun _ _ hc' hvalue => Yields.pure hc' ⟨ht, hvalue⟩

theorem statementFrom_declare (h : YieldsWellFormed tokens last fuel) (hc : c.Within tokens last)
    (hkind : c.kind = .identifier) (hnext : c.nextKind = .mark .colon) :
    Yields tokens last (Statement.WellFormed (· ≤ last)) (statementFrom (fuel + 1)) c := by
  rw [statementFrom]
  refine Yields.get_bind ?_
  simp only [hkind, hnext]
  refine (yields_simpleIdentifier hc).bind fun named _ hc₁ ht => ?_
  obtain ⟨token, name⟩ := named
  refine (yields_discard (yields_expect hc₁ (.mark .colon) (by decide))).bind fun _ c₂ hc₂ _ =>
    Yields.get_bind ?_
  have hbare : Yields tokens last (Statement.WellFormed (· ≤ last)) (do
      endStatement
      return .declare token name none [] none) c₂ :=
    (yields_endStatement hc₂).bind fun _ _ hc₃ _ =>
      Yields.pure hc₃ ⟨ht, Expr.optionWellFormed_nil⟩
  split
  · next hassign =>
    have hassign := Cursor.goesOn hassign (by decide)
    exact Yields.skip_bind hc₂ hassign <|
      (h.value none (by decide) (hc₂.next hassign).within).bind fun _ _ hc₄ hvalue =>
        Yields.pure hc₄ ⟨ht, hvalue.option⟩
  · -- A type comes first; a value may follow it.
    refine (yields_typeName hc₂).bind fun type c₃ hc₃ _ => Yields.get_bind ?_
    split
    · next hassign =>
      have hassign := Cursor.goesOn hassign (by decide)
      exact Yields.skip_bind hc₃ hassign <|
        (h.value none (by decide) (hc₃.next hassign).within).bind fun _ _ hc₄ hvalue =>
          Yields.pure hc₄ ⟨ht, hvalue.option⟩
    · exact (yields_endStatement hc₃).bind fun _ _ hc₄ _ =>
        Yields.pure hc₄ ⟨ht, Expr.optionWellFormed_nil⟩
  · exact hbare
  · exact hbare
  · exact hbare
  · exact yields_failExpected hc₂ _

/-- The operator of a compound assignment takes the target and the value. -/
theorem wellFormed_compound {T : Nat → Prop} {token mark : Nat} {path : List String} {value : Expr}
    {o : Operator} (ho : o.arity = 2) (ht : T token) (hmark : T mark) (hvalue : value.WellFormed T) :
    Expr.WellFormed T (.var token path none :: value ++ [.op mark o]) := by
  have htarget : Expr.IsComplete [.var token path none] := rfl
  have hoperands : ∀ e ∈ [[.var token path none], value], Expr.IsComplete e :=
    List.forall_mem_cons.mpr ⟨htarget, List.forall_mem_singleton.mpr hvalue.1⟩
  constructor
  · have hcomplete := Expr.isComplete_flatten_append hoperands (n := .op mark o) ho.symm
    rwa [List.flatten_cons, List.flatten_cons, List.flatten_nil, List.append_nil] at hcomplete
  · exact ⟨ht, Expr.nodesWellFormed_append.mpr ⟨hvalue.2, hmark, trivial⟩⟩

/-- A statement that starts with a name: what follows it decides. -/
theorem statementFrom_name (h : YieldsWellFormed tokens last fuel) (hc : c.Within tokens last)
    (hkind : c.kind = .identifier) :
    Yields tokens last (Statement.WellFormed (· ≤ last)) (statementFrom (fuel + 1)) c := by
  by_cases hcolon : c.nextKind = .mark .colon
  · exact h.statementFrom_declare hc hkind hcolon
  have hname := Cursor.goesOn hkind (by decide)
  have hc₁ := (hc.next hname).within
  rw [statementFrom]
  refine Yields.get_bind ?_
  simp only [hkind]
  split
  · next h' => exact absurd h' hcolon
  · next hassign =>
    have hassign := Cursor.goesOn (c.kind_next.trans hassign) (by decide)
    exact Yields.skip_bind hc hname <| Yields.skip_bind hc₁ hassign <|
      (h.value none (by decide) (hc₁.next hassign).within).bind fun _ _ hc₃ hvalue =>
        Yields.pure hc₃ ⟨hc.le, hc.le, hvalue⟩
  · split
    · next o ho =>
      have hmark : c.next.kind ≠ .endOfFile := by
        intro heof
        rw [← Cursor.kind_next, heof] at ho
        cases ho
      refine Yields.skip_bind hc hname <| Yields.advance_bind hc₁ hmark <|
        (h.value none (by decide) (hc₁.next hmark).within).bind fun value _ hc₃ hvalue =>
          Yields.pure hc₃ ⟨hc.le, hc.le, wellFormed_compound ?_ hc.le hc₁.le hvalue⟩
      split at ho
      · exact Operator.arity_of_ofCompound? ho
      · cases ho
    · exact h.eval hc hc.le

theorem statementFrom_succ (h : YieldsWellFormed tokens last fuel) (hc : c.Within tokens last) :
    Yields tokens last (Statement.WellFormed (· ≤ last)) (statementFrom (fuel + 1)) c := by
  by_cases hname : c.kind = .identifier
  · exact h.statementFrom_name hc hname
  rw [statementFrom]
  refine Yields.get_bind ?_
  extract_lets token
  split
  · next h' => exact absurd h' hname
  · next hreturn =>
    have hreturn := Cursor.goesOn hreturn (by decide)
    exact Yields.skip_bind hc hreturn <|
      (h.expression none (by decide) (hc.next hreturn).within .start).bind fun _ _ hc₂ hvalue =>
        Yields.pure hc₂ ⟨hc.le, hvalue⟩
  · -- A conditional alone is a statement of its own, not an expression.
    refine (h.value none (by decide) hc).bind fun value _ hc₁ hvalue => ?_
    split
    · exact Yields.pure hc₁ hvalue.2.1
    · exact Yields.pure hc₁ ⟨hc.le, hvalue⟩
  · next hwhile =>
    have hwhile := Cursor.goesOn hwhile (by decide)
    have hc₁ := (hc.next hwhile).within
    refine Yields.skip_bind hc hwhile (Yields.get_bind ?_)
    split
    · next hcurly =>
      have hcurly := Cursor.goesOn hcurly (by decide)
      exact Yields.skip_bind hc₁ hcurly <|
        (h.block (hc₁.next hcurly).within (List.forall_mem_nil _)).bind fun body _ hc₃ hbody =>
          Yields.pure hc₃ ⟨hc.le, Expr.wellFormed_singleton (n := .bool token true) hc.le rfl, hbody⟩
    · exact (h.value (some (.mark .openCurly)) (by decide) hc₁).bind
        fun condition _ hc₂ hcondition =>
        (h.block hc₂ (List.forall_mem_nil _)).bind fun body _ hc₃ hbody =>
          Yields.pure hc₃ ⟨hc.le, hcondition, hbody⟩
  · next hbreak =>
    have hbreak := Cursor.goesOn hbreak (by decide)
    exact Yields.skip_bind hc hbreak <|
      (yields_exitAmount (hc.next hbreak).within).bind fun _ _ hc₂ _ =>
        (yields_endStatement hc₂).bind fun _ _ hc₃ _ => Yields.pure hc₃ hc.le
  · next hcontinue =>
    have hcontinue := Cursor.goesOn hcontinue (by decide)
    exact Yields.skip_bind hc hcontinue <|
      (yields_endStatement (hc.next hcontinue).within).bind fun _ _ hc₂ _ => Yields.pure hc₂ hc.le
  · exact h.eval hc hc.le

end YieldsWellFormed

theorem yieldsWellFormed (tokens : List Token) (last fuel : Nat) :
    YieldsWellFormed tokens last fuel := by
  -- Without fuel all readers fail; with fuel each calls the others with one unit less.
  induction fuel with
  | zero =>
    constructor
    · intro stop p c _ hc _
      rw [expressionFrom]
      exact yields_failUnexpected hc
    · intro token c hc _
      rw [conditionalFrom]
      exact yields_failUnexpected hc
    · intro done c hc _
      rw [blockFrom]
      exact yields_failUnexpected hc
    · intro c hc
      rw [statementFrom]
      exact yields_failUnexpected hc
  | succ fuel ih =>
    exact ⟨fun stop => ih.expressionFrom_succ stop, ih.conditionalFrom_succ, ih.blockFrom_succ,
      ih.statementFrom_succ⟩

end FrontEnd.Grammar
