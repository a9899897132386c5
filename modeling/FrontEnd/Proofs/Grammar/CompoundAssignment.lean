import FrontEnd.Proofs.Grammar.Mirroring
import FrontEnd.Proofs.Printing.SourceText

/-!
# Compound assignments

`x += e` assigns what `x = x + (e)` assigns. On one side the value is put together around
an expression that has been read alone, on the other it goes through the stack of pending
operators; whatever `e` is made of, the same value comes out, and both statements are read up
to the same token.
-/

namespace FrontEnd.Grammar

open Token (Kind Mark Keyword Shape)

variable {tokens : List Token} {last : Nat} {c d c' : Cursor}

/-! ## Cursors over lists of tokens -/

/-- A file in which a cursor stands, and another one some tokens on. -/
theorem Cursor.exists_within_both {c : Cursor} {es rest : List Token} {t : Token}
    (h : c.current :: c.rest = es ++ t :: rest) (hends : ∃ u ∈ t :: rest, u.kind = .endOfFile) :
    ∃ tokens last, c.Within tokens last ∧
      Cursor.Within tokens last ⟨c.index + es.length, t, rest⟩ := by
  obtain ⟨u, hu, hend⟩ := hends
  obtain ⟨k, hk⟩ := List.getElem?_of_mem hu
  have hlength : (List.replicate c.index c.current).length = c.index := List.length_replicate
  have hlast : (List.replicate c.index c.current ++ (es ++ t :: rest))[
      c.index + (es.length + k)]? = some u := by
    rw [List.getElem?_append_right (by omega), hlength, Nat.add_sub_cancel_left,
      List.getElem?_append_right (by omega), Nat.add_sub_cancel_left, hk]
  refine ⟨List.replicate c.index c.current ++ (es ++ t :: rest), c.index + (es.length + k),
    ⟨?_, Nat.le_add_right _ _, u, hlast, hend⟩,
    ⟨?_, by show c.index + es.length ≤ _; omega, u, hlast, hend⟩⟩
  · rw [Cursor.In, List.drop_left' hlength, h]
  · rw [Cursor.In, ← List.drop_drop, List.drop_left' hlength, List.drop_left]

/-- The same tokens stand up to the fence. -/
theorem Beside.of_forall₂ {f : Fence tokens last} {es es' : List Token}
    (h : List.Forall₂ Token.Same es es')
    (hc : c.current :: c.rest = es ++ f.left.current :: f.left.rest)
    (hd : d.current :: d.rest = es' ++ f.right.current :: f.right.rest)
    (hleft : c.index + es.length = f.left.index)
    (hright : d.index + es'.length = f.right.index) : Beside (some f) c d := by
  induction h generalizing c d with
  | nil =>
    have heq : ∀ {c c' : Cursor}, c.current :: c.rest = c'.current :: c'.rest →
        c.index = c'.index → c = c' := by
      rintro ⟨i, t, rest⟩ ⟨j, u, rest'⟩ htokens hindex
      obtain ⟨rfl, rfl⟩ := List.cons.inj htokens
      cases hindex
      rfl
    rw [heq hc hleft, heq hd hright]
    exact .fence rfl
  | cons hsame _ ih =>
    obtain ⟨rfl, htokens⟩ := List.cons.inj hc
    obtain ⟨rfl, htokens'⟩ := List.cons.inj hd
    have hrest : c.rest ≠ [] := by simp [htokens]
    have hrest' : d.rest ≠ [] := by simp [htokens']
    obtain ⟨hindex, hnext⟩ := Cursor.next_spec hrest
    obtain ⟨hindex', hnext'⟩ := Cursor.next_spec hrest'
    rw [List.length_cons] at hleft hright
    exact .step hsame hrest hrest'
      (ih (hnext.trans htokens) (hnext'.trans htokens') (by omega) (by omega))

theorem rebroken_of_forall₂ {s : Standing} {ts us : List Token}
    (h : List.Forall₂ Token.Same ts us) : Rebroken s ts us := by
  induction h generalizing s with
  | nil => exact .nil
  | cons hsame _ ih => exact .keep hsame ih

/-- Some tokens on. -/
theorem Cursor.iterate_next {es rest : List Token} {t : Token}
    (h : c.current :: c.rest = es ++ t :: rest) :
    Cursor.next^[es.length] c = ⟨c.index + es.length, t, rest⟩ := by
  induction es generalizing c with
  | nil =>
    obtain ⟨index, current, rest'⟩ := c
    obtain ⟨rfl, rfl⟩ := List.cons.inj h
    rfl
  | cons e es ih =>
    obtain ⟨rfl, hrest⟩ := List.cons.inj h
    obtain ⟨hindex, hnext⟩ := Cursor.next_spec (c := c) (by rw [hrest]; simp)
    rw [List.length_cons, Function.iterate_succ_apply, ih (hnext.trans hrest), hindex]
    simp only [Nat.add_assoc, Nat.add_comm 1]

/-- The tokens from a cursor on: some of given shapes, and then the same as `ts`. -/
def Cursor.Shows (c : Cursor) (shapes : List Shape) (ts : List Token) : Prop :=
  ∃ us vs, c.current :: c.rest = us ++ vs ∧ us.map Token.shape = shapes ∧
    List.Forall₂ Token.Same ts vs

theorem Cursor.Shows.uncons {s : Shape} {shapes : List Shape} {ts : List Token}
    (h : c.Shows (s :: shapes) ts) (hts : ts ≠ []) :
    c.current.shape = s ∧ c.next.Shows shapes ts ∧ c.next.index = c.index + 1 ∧
      c.next.remaining + 1 = c.remaining := by
  obtain ⟨us, vs, htokens, hshapes, hsame⟩ := h
  cases us with
  | nil => cases hshapes
  | cons u us =>
    obtain ⟨rfl, hmap⟩ := List.cons.inj hshapes
    obtain ⟨rfl, hrest⟩ := List.cons.inj htokens
    have hvs : vs ≠ [] := by
      rintro rfl
      cases hsame
      exact hts rfl
    obtain ⟨hindex, hnext⟩ := Cursor.next_spec (c := c) (by rw [hrest]; simp [hvs])
    refine ⟨rfl, ⟨us, vs, hnext.trans hrest, hmap, hsame⟩, hindex, ?_⟩
    rw [Cursor.remaining, Cursor.remaining, ← hnext, List.length_cons]

theorem Cursor.Shows.same {ts : List Token} (h : c.Shows [] ts) :
    List.Forall₂ Token.Same ts (c.current :: c.rest) := by
  obtain ⟨us, vs, htokens, hshapes, hsame⟩ := h
  rw [List.map_eq_nil_iff] at hshapes
  rwa [htokens, hshapes]

theorem Cursor.Shows.exists_endOfFile {shapes : List Shape} {ts : List Token}
    (h : c.Shows shapes ts) (hends : ∃ t ∈ ts, t.kind = .endOfFile) :
    ∃ t ∈ c.current :: c.rest, t.kind = .endOfFile := by
  obtain ⟨us, vs, htokens, -, hsame⟩ := h
  obtain ⟨w, hw, hend⟩ := (rebroken_of_forall₂ (s := .plain) hsame).exists_endOfFile hends
  exact ⟨w, htokens ▸ List.mem_append_right _ hw, hend⟩

theorem exists_append_of_forall₂ {es rest us : List Token} {t : Token}
    (h : List.Forall₂ Token.Same (es ++ t :: rest) us) :
    ∃ es' u after, us = es' ++ u :: after ∧ List.Forall₂ Token.Same es es' ∧
      List.Forall₂ Token.Same (t :: rest) (u :: after) := by
  induction es generalizing us with
  | nil =>
    cases h with
    | cons hsame hrest => exact ⟨[], _, _, rfl, .nil, .cons hsame hrest⟩
  | cons e es ih =>
    cases h with
    | cons hsame hrest =>
      obtain ⟨es', u, after, rfl, hes, hrest⟩ := ih hrest
      exact ⟨_ :: es', u, after, rfl, .cons hsame hes, hrest⟩

/-! ## Expressions up to a token -/

/-- The tokens `es` are read as the expression `e` up to the token `t`, which ends it: the line
break that ends an expression is none of its own tokens. -/
structure ReadUpTo (es : List Token) (t : Token) (rest : List Token) (e : Expr) : Prop where
  read : ∃ start : Cursor, start.current :: start.rest = es ++ t :: rest ∧
    valueExpression none start =
      .ok e (Cursor.afterEnd none ⟨start.index + es.length, t, rest⟩)
  own : ∀ u ∈ es.getLast?, u.kind ≠ .terminator
  ends : ∃ u ∈ t :: rest, u.kind = .endOfFile

/-- The loop comes to no other place than the one that the expression is known to end at. -/
theorem ComesTo.index_eq {p p' : Progress} {e : Expr} {z left : Cursor}
    (h : ComesTo tokens last none p c e (left.afterEnd none) p' z)
    (hleft : left.Within tokens last) (hle : c.index ≤ left.index)
    (hown : c.index < left.index → ¬BehindTerminator tokens left) : z.index = left.index := by
  have hz := h.reaches.within
  have hforward := h.reaches.forward
  obtain ⟨-, -, -, hafter⟩ := endExpression_eq_ok_iff.mp h.result
  have hindex := congrArg Cursor.index hafter.symm
  unfold Cursor.afterEnd at hindex
  by_cases hterm : z.kind = .terminator <;> by_cases hterm' : left.kind = .terminator
  · rw [if_pos (.inl hterm), if_pos (.inl hterm'),
      hz.index_next (Cursor.goesOn hterm (by decide)),
      hleft.index_next (Cursor.goesOn hterm' (by decide))] at hindex
    omega
  · -- The token before `left` would be a terminator of the expression itself.
    rw [if_pos (.inl hterm), if_neg (by simpa using hterm'),
      hz.index_next (Cursor.goesOn hterm (by decide))] at hindex
    refine absurd ⟨z.current, ?_, hterm⟩ (hown (by omega))
    rw [← hindex, Nat.add_sub_cancel, hz.inTokens.current]
  · -- The loop would have gone past the terminator at `left`.
    rw [if_neg (by simpa using hterm), if_pos (.inl hterm'),
      hleft.index_next (Cursor.goesOn hterm' (by decide))] at hindex
    rcases h.moved with ⟨rfl, -⟩ | ⟨-, hbehind⟩
    · omega
    · refine absurd ⟨left.current, ?_, hterm'⟩ hbehind
      rw [hindex, Nat.add_sub_cancel, hleft.inTokens.current]
  · rw [if_neg (by simpa using hterm), if_neg (by simpa using hterm')] at hindex
    exact hindex

/-- The expression `e` is complete, on top of what had been read before. -/
def Completes (e : Expr) (f : Frame) (q : Progress) : Prop :=
  ∃ p : Progress, p.isOpen = false ∧ Progress.finish p.output p.pending = .ok e ∧ p.Atop f q

namespace ReadUpTo

variable {es : List Token} {t : Token} {rest : List Token} {e : Expr}

/-- Wherever the tokens of an expression stand, the loop comes from the first one to the token
behind the last one, unless this goes on with what has been read, and to the same progress on top of
what had been read before. -/
theorem arrives (h : ReadUpTo es t rest e) {f : Frame} {q : Progress}
    (hq : Progress.Atop f .start q) {es' after : List Token} {u : Token}
    (hsame : List.Forall₂ Token.Same es es') (hd : d.current :: d.rest = es' ++ u :: after)
    (hparen : u.kind = .mark .openParen → t.kind = .mark .openParen)
    (horElse : (Cursor.skipTerminators ⟨d.index + es'.length, u, after⟩).kind = .keyword .elseKw →
      ∀ i, (Cursor.skipTerminators ⟨i, t, rest⟩).kind = .keyword .elseKw) :
    e ≠ [] ∧ endsExpression none t.kind = true ∧ ∃ fuel, ∀ extra, ∃ left q', Completes e f q' ∧
      (readers (extra + fuel)).expression none q d =
        (readers (extra + left + 1)).expression none q' ⟨d.index + es'.length, u, after⟩ := by
  obtain ⟨start, hstart, hread⟩ := h.read
  obtain ⟨tokens, last, hc, hleft⟩ := Cursor.exists_within_both hstart h.ends
  let fence : Fence tokens last := ⟨_, ⟨d.index + es'.length, u, after⟩, hleft, hparen,
    fun hkind => horElse hkind _⟩
  have hb : Beside (some fence) start d := .of_forall₂ hsame hstart hd rfl rfl
  rw [valueExpression_eq] at hread
  obtain ⟨hread, hne⟩ := nonEmpty_eq_ok.mp hread
  have hown : start.index < start.index + es.length →
      ¬BehindTerminator tokens ⟨start.index + es.length, t, rest⟩ := by
    rintro hlt ⟨w, hw, hkind⟩
    have hlast : es.getLast? = some w := by
      have hdrop : tokens.drop start.index = es ++ t :: rest := hc.inTokens.trans hstart
      rw [show start.index + es.length - 1 = start.index + (es.length - 1) by omega,
        ← List.getElem?_drop, hdrop, List.getElem?_append_left (by omega)] at hw
      rw [List.getLast?_eq_getElem?, hw]
    exact h.own w hlast hkind
  have hindex : ∀ {p' z}, ComesTo tokens last none .start start e
      (Cursor.afterEnd none ⟨start.index + es.length, t, rest⟩) p' z →
      z.index = start.index + es.length :=
    fun hz => hz.index_eq hleft (Nat.le_add_right _ _) hown
  have harrives : ∀ extra, endsExpression none t.kind = true ∧ ∃ left q', Completes e f q' ∧
      (readers (extra + start.fuel)).expression none q d =
        (readers (extra + left + 1)).expression none q' ⟨d.index + es'.length, u, after⟩ := by
    intro extra
    obtain ⟨p', z, hz, hmirror⟩ :=
      (mirrored tokens last extra start.fuel).expression f (.inl rfl) hc hq hb e _ hread
    have hbefore : ∀ g, some fence = some g → z.index ≤ g.left.index := by
      rintro g ⟨⟩
      exact Nat.le_of_eq (hindex hz)
    obtain ⟨left, q', z', hrun, hq', hz'⟩ := hmirror hbefore
    obtain ⟨rfl, rfl⟩ := hz'.eq_right (hindex hz)
    obtain ⟨hopen, hfinish, -⟩ := endExpression_eq_ok_iff.mp hz.result
    exact ⟨hz.ends, left, q', ⟨p', hopen, hfinish, hq'⟩, hrun⟩
  exact ⟨hne, (harrives 0).1, start.fuel, fun extra => (harrives extra).2⟩

end ReadUpTo

/-! ## What an expression is complete with -/

namespace Completes

variable {e : Expr} {f : Frame} {q : Progress}

/-- An expression that is complete, and is all that there is, is read where it ends. -/
theorem expression_end (h : Completes e .empty q) (hends : endsExpression none c.kind = true)
    (fuel : Nat) :
    ∃ v, (readers (fuel + 1)).expression none q c = .ok v (c.afterEnd none) ∧ SameExpr e v := by
  obtain ⟨p, hopen, hfinish, hatop⟩ := h
  have hpq := hatop.withoutTokens
  obtain ⟨v, hv, hsame⟩ := Progress.finish_alike hpq hfinish
  have hopen' : q.isOpen = false := (isOpen_congr hpq).symm.trans hopen
  refine ⟨v, ?_, hsame⟩
  rw [readers_succ, Readers.expression_end _ hends (by simp [hopen'])]
  exact endExpression_of_finish hopen' hv (by simp)

/-- The operators that are still pending in an expression wait for its end only. -/
theorem flushGroup_of_finish {output : List Node} {pending : List Pending}
    (h : Progress.finish output pending = .ok e) (below : List Node) (paren : Nat)
    (rest : List Pending) :
    Progress.flushGroup (output ++ below) (pending ++ .group paren :: rest) =
      (e.reverse ++ below, .group paren :: rest) := by
  induction pending generalizing output with
  | nil =>
    cases h
    rw [List.reverse_reverse]
    rfl
  | cons o pending ih =>
    cases o with
    | op operator token => exact ih h
    | group paren => cases h
    | call token path paren commas => cases h

theorem wantsOperand_of_finish {p : Progress} (hopen : p.isOpen = false)
    (hfinish : Progress.finish p.output p.pending = .ok e) (hne : e ≠ []) :
    p.wantsOperand = false := by
  obtain ⟨output, pending, wantsOperand, justOpened⟩ := p
  cases wantsOperand with
  | false => rfl
  | true =>
    cases output <;> cases pending
    · cases hfinish
      exact absurd rfl hne
    all_goals cases hopen

/-- The closing parenthesis around the second operand of an operator. -/
theorem close {n : Node} {o : Operator} {token paren : Nat}
    (h : Completes e (.operand n o token paren) q) (hne : e ≠ []) :
    ∃ q', q.close = .ok q' ∧ Completes (n :: e ++ [.op token o]) .empty q' := by
  obtain ⟨p, hopen, hfinish, hatop⟩ := h
  let closed : Progress := ⟨e.reverse ++ [n], [.op o token], false, false⟩
  have hclose : (p.onto (.operand n o token paren)).close = .ok closed := by
    unfold Progress.close
    rw [Progress.wantsOperand_onto, wantsOperand_of_finish hopen hfinish hne]
    simp only [Bool.false_and, Bool.false_eq_true, if_false, Progress.onto, Frame.operand,
      flushGroup_of_finish hfinish]
    rfl
  have hmap : (p.onto (.operand n o token paren)).close.map Progress.withoutTokens =
      q.close.map Progress.withoutTokens := by
    rw [← Progress.close_withoutTokens, ← Progress.close_withoutTokens, hatop]
  obtain ⟨q', hq', hsame⟩ := Progress.exists_of_map_eq hmap hclose
  refine ⟨q', hq', closed, rfl, by simp [closed, Progress.finish], ?_⟩
  rw [Progress.Atop, Progress.onto_empty]
  exact hsame

/-- The closing parenthesis, and the end of the expression behind it. -/
theorem expression_close {n : Node} {o : Operator} {token paren : Nat}
    (h : Completes e (.operand n o token paren) q) (hne : e ≠ [])
    (hshape : c.current.shape = .mark .closeParen)
    (hends : endsExpression none c.next.kind = true) (fuel : Nat) :
    ∃ v, (readers (fuel + 2)).expression none q c = .ok v (c.next.afterEnd none) ∧
      SameExpr (n :: e ++ [.op token o]) v := by
  obtain ⟨q', hq', hcomplete⟩ := h.close hne
  obtain ⟨v, hrun, hsame⟩ := hcomplete.expression_end hends fuel
  refine ⟨v, ?_, hsame⟩
  rw [readers_succ, Readers.expression_mark _ (by decide) hshape]
  show (readers (fuel + 1)).goOn none _ _ q.close = _
  rw [hq']
  exact hrun

end Completes

/-! ## Assignments -/

namespace Readers

variable (r : Readers) {path : List String} {v : Expr}

theorem statement_assign (hname : c.current.shape = .identifier path)
    (hmark : c.next.current.shape = .mark .assign) (hrun : r.value none c.next.next = .ok v c') :
    r.turn.statement c = .ok (.assign c.index ⟨c.index, path, none⟩ v) c' := by
  have hkind : c.kind = .identifier := kind_of_identifier hname
  have hnext : c.nextKind = .mark .assign := c.kind_next.symm.trans (congrArg Shape.kind hmark)
  have hpath : c.current.path = path := by rw [Token.path, hname]
  simp only [turn, get_bind, hkind, hnext, hpath]
  exact bind_run hrun _

theorem statement_compound {k : Mark} {o : Operator} (hk : Operator.ofCompound? k = some o)
    (hname : c.current.shape = .identifier path) (hmark : c.next.current.shape = .mark k)
    (hrun : r.value none c.next.next = .ok v c') :
    r.turn.statement c = .ok (.assign c.index ⟨c.index, path, none⟩
      (.var c.index path none :: v ++ [.op c.next.index o])) c' := by
  have hkind : c.kind = .identifier := kind_of_identifier hname
  have hnext : c.nextKind = .mark k := c.kind_next.symm.trans (congrArg Shape.kind hmark)
  have hpath : c.current.path = path := by rw [Token.path, hname]
  cases k <;> cases hk <;> simp only [turn, get_bind, hkind, hnext, hpath] <;>
    exact bind_run hrun _

/-- With more than enough fuel nothing else is read. -/
theorem value_of_more (extra : Nat) {n : Nat} {result : EStateM.Result Fault Cursor Expr}
    (hends : ∃ t ∈ c.current :: c.rest, t.kind = .endOfFile) (hn : c.fuel ≤ n)
    (hrun : (readers (extra + n)).value none c = result) : (readers n).value none c = result := by
  obtain ⟨tokens, last, hc⟩ := Cursor.exists_within hends
  have hfuel := hc.fuel_ge
  have halike := Readers.alike_readers tokens last (readers 0) (Nat.le_add_left n extra)
  rw [← readers_eq_iterate] at halike
  have hnone : (none : Option Kind) ≠ some .endOfFile := nofun
  rw [← (halike.value hnone hc (by omega)).same]
  exact hrun

end Readers

section

variable {es : List Token} {t : Token} {rest : List Token} {e : Expr} {path : List String} {n : Nat}

theorem aligned_of_forall₂ {u : Token} {after : List Token}
    (h : List.Forall₂ Token.Same (t :: rest) (u :: after))
    (hends : ∃ w ∈ t :: rest, w.kind = .endOfFile) (i j : Nat) :
    Aligned ⟨i, t, rest⟩ ⟨j, u, after⟩ :=
  ⟨.plain, nofun, rebroken_of_forall₂ h, hends⟩

/-- The tokens of an expression, read alone. -/
theorem ReadUpTo.value_run (h : ReadUpTo es t rest e) (hc : c.Shows [] (es ++ t :: rest))
    (hn : c.fuel ≤ n) :
    ∃ v, (readers n).value none c = .ok v ((Cursor.next^[es.length] c).afterEnd none) ∧
      SameExpr e v := by
  obtain ⟨es', u, after, htokens, hes, hafter⟩ := exists_append_of_forall₂ hc.same
  have haligned := aligned_of_forall₂ hafter h.ends
  have hkind : t.kind = u.kind := (haligned 0 0).kind
  obtain ⟨hne, hends, fuel, harrives⟩ := h.arrives (f := .empty) (q := .start)
    (congrArg Progress.withoutTokens (Progress.onto_empty _)) hes htokens
    (fun hparen => hkind.trans hparen)
    (fun horElse i => (haligned i _).skipTerminators.kind.trans horElse)
  obtain ⟨left, q, hcomplete, hrun⟩ := harrives n
  obtain ⟨v, hv, hsame⟩ := hcomplete.expression_end (c := ⟨c.index + es'.length, u, after⟩)
    (show endsExpression none u.kind = true from hkind ▸ hends) (n + left)
  have hexpression : (readers (n + fuel)).expression none .start c =
      .ok v ((Cursor.next^[es.length] c).afterEnd none) := by
    rw [hrun, hv, hes.length_eq, Cursor.iterate_next htokens]
  have heof := hc.exists_endOfFile (by
    obtain ⟨w, hw, hend⟩ := h.ends
    exact ⟨w, List.mem_append_right _ hw, hend⟩)
  refine ⟨v, Readers.value_of_more fuel heof hn ?_, hsame⟩
  rw [Nat.add_comm]
  exact nonEmpty_eq_ok.mpr ⟨hexpression, Expr.ne_nil_of_withoutTokens hsame.symm hne⟩

theorem not_ends_of_ofMark? {k : Mark} {o : Operator} (h : Operator.ofMark? k = some o) :
    k ≠ .openParen ∧ ¬endsExpression none (.mark k) = true := by
  cases k <;> cases h <;> decide

/-- A name, an operator and an opening parenthesis behind it. -/
theorem Readers.expression_operand {k : Mark} {o : Operator} (hk : Operator.ofMark? k = some o)
    (ho : o ≠ .not) (hname : c.current.shape = .identifier path)
    (hmark : c.next.current.shape = .mark k)
    (hparen : c.next.next.current.shape = .mark .openParen) (n : Nat) :
    (readers (n + 3)).expression none .start c = (readers n).expression none
      (Progress.start.onto
        (.operand (.var c.index path none) o c.next.index c.next.next.index)) c.next.next.next := by
  obtain ⟨hcall, hends⟩ := not_ends_of_ofMark? hk
  have hkind : c.kind = .identifier := kind_of_identifier hname
  have hkind₁ : c.next.kind = .mark k := congrArg Shape.kind hmark
  have hfeed : (Progress.mk [.var c.index path none] [] false false).feed c.next.index (.mark k) =
      .ok ⟨[.var c.index path none], [.op o c.next.index], true, false⟩ := by
    rw [feed_operator hk, Progress.operator]
    simp only [Bool.false_eq_true, if_false, if_neg ho]
    rfl
  rw [readers_succ, Readers.expression_feed _ (by rw [hkind]; decide) (by simp [hname]) ?_,
    hname]
  · show (readers (n + 2)).expression none _ c.next = _
    rw [readers_succ, Readers.expression_mark _ hends hmark]
    show (readers (n + 1)).goOn none _ _ (Progress.feed ⟨[.var c.index path none], [], false, false⟩
      c.next.index (.mark k)) = _
    rw [hfeed]
    show (readers (n + 1)).expression none _ c.next.next = _
    rw [readers_succ, Readers.expression_mark _ (by decide) hparen]
    rfl
  · rintro - - hnext
    rw [← Cursor.kind_next, hkind₁] at hnext
    exact hcall (Token.Kind.mark.inj hnext)

/-- The tokens of an expression, read in parentheses behind a name and an operator. -/
theorem ReadUpTo.operand_run (h : ReadUpTo es t rest e) {k : Mark} {o : Operator}
    (hk : Operator.ofMark? k = some o) (ho : o ≠ .not) {close : Token}
    (hclose : close.shape = .mark .closeParen)
    (hc : c.Shows [.identifier path, .mark k, .mark .openParen] (es ++ close :: t :: rest))
    (hn : c.fuel ≤ n) :
    ∃ v, (readers n).value none c = .ok v ((Cursor.next^[es.length + 4] c).afterEnd none) ∧
      SameExpr (.var c.index path none :: e ++ [.op c.next.index o]) v := by
  obtain ⟨hname, hc₁, -⟩ := hc.uncons (by simp)
  obtain ⟨hmark, hc₂, -⟩ := hc₁.uncons (by simp)
  obtain ⟨hparen, hc₃, -⟩ := hc₂.uncons (by simp)
  obtain ⟨es', u, after, htokens, hes, hafter⟩ := exists_append_of_forall₂ hc₃.same
  obtain ⟨hu, hafter⟩ := List.forall₂_cons.mp hafter
  cases hafter with
  | @cons _ t' _ after ht hrest =>
  have hshape : u.shape = .mark .closeParen := hu.shape.symm.trans hclose
  have hukind : u.kind = .mark .closeParen := congrArg Shape.kind hshape
  have hkind : t.kind = t'.kind := congrArg Shape.kind ht.shape
  obtain ⟨hne, hends, fuel, harrives⟩ := h.arrives
    (f := .operand (.var c.index path none) o c.next.index c.next.next.index) rfl hes htokens
    (fun hopen => absurd (hukind.symm.trans hopen) (by decide))
    (fun horElse => by
      rw [Cursor.skipTerminators_of_ne (by rw [Cursor.kind, hukind]; decide), Cursor.kind,
        hukind] at horElse
      cases horElse)
  obtain ⟨left, q, hcomplete, hrun⟩ := harrives (n + 1)
  obtain ⟨v, hv, hsame⟩ := hcomplete.expression_close
    (c := ⟨c.next.next.next.index + es'.length, u, t' :: after⟩) hne hshape
    (show endsExpression none t'.kind = true from hkind ▸ hends) (n + left)
  have hexpression : (readers (fuel + 4 + n)).expression none .start c =
      .ok v ((Cursor.next^[es.length + 4] c).afterEnd none) := by
    rw [show fuel + 4 + n = n + 1 + fuel + 3 by omega,
      Readers.expression_operand hk ho hname hmark hparen, hrun,
      show n + 1 + left + 1 = n + left + 2 by omega, hv, ← Cursor.iterate_next htokens,
      ← hes.length_eq, ← Function.iterate_succ_apply' Cursor.next]
    rfl
  have heof := hc.exists_endOfFile (by
    obtain ⟨w, hw, hend⟩ := h.ends
    exact ⟨w, List.mem_append_right _ (List.mem_cons_of_mem _ hw), hend⟩)
  refine ⟨v, Readers.value_of_more (fuel + 4) heof hn ?_, hsame⟩
  exact nonEmpty_eq_ok.mpr ⟨hexpression, Expr.ne_nil_of_withoutTokens hsame.symm (by simp)⟩

/-- The operator of a compound assignment has a mark of its own, and is binary. -/
theorem ofMark?_mark_of_compound {k : Mark} {o : Operator} (hk : Operator.ofCompound? k = some o) :
    Operator.ofMark? o.mark = some o ∧ o ≠ .not := by
  cases k <;> cases hk <;> decide

/-- A statement is read in one turn. -/
theorem exists_turn_of_statement (c : Cursor) :
    ∃ n, c.fuel = n + 1 ∧ statement c = (readers n).turn.statement c :=
  ⟨4 * (c.remaining + 2) - 1, by unfold Cursor.fuel; omega, rfl⟩

/-- **A compound assignment is what it stands for.** `x op= e` and `x = x op ( e )` are both read,
up to the same token, and they assign the same value to the same name. -/
theorem compoundAssignment_expands (h : ReadUpTo es t rest e) {k : Mark} {o : Operator}
    (hk : Operator.ofCompound? k = some o) {close : Token}
    (hclose : close.shape = .mark .closeParen)
    (hc : c.Shows [.identifier path, .mark k] (es ++ t :: rest))
    (hd : d.Shows
      [.identifier path, .mark .assign, .identifier path, .mark o.mark, .mark .openParen]
      (es ++ close :: t :: rest)) :
    ∃ v v', statement c = .ok (.assign c.index ⟨c.index, path, none⟩ v)
        ((Cursor.next^[es.length + 2] c).afterEnd none) ∧
      statement d = .ok (.assign d.index ⟨d.index, path, none⟩ v')
        ((Cursor.next^[es.length + 6] d).afterEnd none) ∧
      SameExpr (.var 0 path none :: e ++ [.op 0 o]) v ∧ SameExpr v v' := by
  obtain ⟨hmark, ho⟩ := ofMark?_mark_of_compound hk
  obtain ⟨hname, hc₁, -, hremaining⟩ := hc.uncons (by simp)
  obtain ⟨hcompound, hc₂, -, hremaining₁⟩ := hc₁.uncons (by simp)
  obtain ⟨n, hn, hstatement⟩ := exists_turn_of_statement c
  obtain ⟨w, hvalue, hw⟩ := h.value_run hc₂ (n := n) (by unfold Cursor.fuel at hn ⊢; omega)
  obtain ⟨hname', hd₁, -, hremaining'⟩ := hd.uncons (by simp)
  obtain ⟨hassign, hd₂, -, hremaining₁'⟩ := hd₁.uncons (by simp)
  obtain ⟨n', hn', hstatement'⟩ := exists_turn_of_statement d
  obtain ⟨w', hvalue', hw'⟩ := h.operand_run hmark ho hclose hd₂ (n := n')
    (by unfold Cursor.fuel at hn' ⊢; omega)
  refine ⟨.var c.index path none :: w ++ [.op c.next.index o], w',
    hstatement.trans (Readers.statement_compound _ hk hname hcompound hvalue),
    hstatement'.trans (Readers.statement_assign _ hname' hassign hvalue'), ?_, ?_⟩
  · simp only [SameExpr, List.cons_append, Expr.withoutTokens_cons, Expr.withoutTokens_append,
      Node.withoutTokens, hw]
  · rw [SameExpr, ← hw']
    simp only [List.cons_append, Expr.withoutTokens_cons, Expr.withoutTokens_append,
      Node.withoutTokens, hw]

/-- The tokens of `a + if b { f(a) } else { b }`. -/
def summandTokens : List Token :=
  [⟨.identifier ["a"], "a", ⟨5, 6⟩⟩, ⟨.mark .plus, "+", ⟨7, 8⟩⟩, ⟨.keyword .ifKw, "if", ⟨9, 11⟩⟩,
    ⟨.identifier ["b"], "b", ⟨12, 13⟩⟩, ⟨.mark .openCurly, "\x7b", ⟨14, 15⟩⟩,
    ⟨.identifier ["f"], "f", ⟨16, 17⟩⟩, ⟨.mark .openParen, "(", ⟨17, 18⟩⟩,
    ⟨.identifier ["a"], "a", ⟨18, 19⟩⟩, ⟨.mark .closeParen, ")", ⟨19, 20⟩⟩,
    ⟨.mark .closeCurly, "\x7d", ⟨21, 22⟩⟩, ⟨.keyword .elseKw, "else", ⟨23, 27⟩⟩,
    ⟨.mark .openCurly, "\x7b", ⟨28, 29⟩⟩, ⟨.identifier ["b"], "b", ⟨30, 31⟩⟩,
    ⟨.mark .closeCurly, "\x7d", ⟨32, 33⟩⟩]

theorem compoundAssignment_expands_conditional :
    let name : Token := ⟨.identifier ["x"], "x", ⟨0, 1⟩⟩
    let lineBreak : Token := ⟨.terminator, "\n", ⟨33, 34⟩⟩
    let final : Token := ⟨.endOfFile, "EOF", ⟨34, 34⟩⟩
    let close : Token := ⟨.mark .closeParen, ")", ⟨33, 34⟩⟩
    let c : Cursor :=
      ⟨0, name, ⟨.mark .starAssign, "*=", ⟨2, 4⟩⟩ :: summandTokens ++ [lineBreak, final]⟩
    let d : Cursor :=
      ⟨0, name, ⟨.mark .assign, "=", ⟨2, 3⟩⟩ :: name :: ⟨.mark .star, "*", ⟨3, 4⟩⟩ ::
        ⟨.mark .openParen, "(", ⟨4, 5⟩⟩ :: summandTokens ++ [close, lineBreak, final]⟩
    ∃ e, ReadUpTo summandTokens lineBreak [final] e ∧ ∃ v v',
      statement c = .ok (.assign 0 ⟨0, ["x"], none⟩ v) ((Cursor.next^[16] c).afterEnd none) ∧
      statement d = .ok (.assign 0 ⟨0, ["x"], none⟩ v') ((Cursor.next^[20] d).afterEnd none) ∧
      SameExpr (.var 0 ["x"] none :: e ++ [.op 0 .mul]) v ∧ SameExpr v v' := by
  intro name lineBreak final close c d
  have hread : ReadUpTo summandTokens lineBreak [final] _ :=
    ⟨⟨⟨0, _, _⟩, rfl, rfl⟩, by decide, final, by decide, rfl⟩
  exact ⟨_, hread, compoundAssignment_expands (c := c) (d := d) hread rfl rfl
    ⟨[_, _], _, rfl, rfl, List.forall₂_same.mpr fun _ _ => ⟨rfl, rfl⟩⟩
    ⟨[_, _, _, _, _], _, rfl, rfl, List.forall₂_same.mpr fun _ _ => ⟨rfl, rfl⟩⟩⟩

end

end FrontEnd.Grammar
