import FrontEnd.Proofs.Grammar.Turns
import FrontEnd.Proofs.Printing.Cursors
import FrontEnd.Proofs.WellFormed.Reading

/-!
# Readers that do the same

Two readers are alike at a cursor if they do the same from there, inside the file. After
enough turns the readers of expressions and statements are alike whatever they would call
next: between two calls of the same reader a token is read, so at most four turns are taken
for each token that is left.
-/

namespace FrontEnd.Grammar

open Token (Kind Mark Keyword)

variable {α β : Type} {tokens : List Token} {last : Nat} {c c' : Cursor}

/-- A place after the one of the cursor. -/
abbrev Cursor.Past (c : Cursor) (_ : α) (c' : Cursor) : Prop := c.index < c'.index

/-- From a cursor two readers do the same. What they give, and where they stop in the file, is as
`Q` says. -/
structure Alike (tokens : List Token) (last : Nat) (Q : α → Cursor → Prop) (x y : Parse α)
    (c : Cursor) : Prop where
  same : x c = y c
  result : ∀ a c', y c = .ok a c' → c.Reaches tokens last c' ∧ Q a c'

theorem Cursor.Within.index_lt_next (hc : c.Within tokens last) (h : c.kind ≠ .endOfFile) :
    c.index < c.next.index := by
  have hlt := hc.index_lt h
  obtain ⟨t, ht, -⟩ := hc.ends
  have hin : tokens.drop c.index = c.current :: c.rest := hc.inTokens
  obtain ⟨index, current, _ | ⟨u, rest⟩⟩ := c
  · -- The last token would stand before the end.
    have hlen := congrArg List.length hin
    obtain ⟨hlast, -⟩ := List.getElem?_eq_some_iff.mp ht
    rw [List.length_drop, List.length_singleton] at hlen
    change tokens.length - index = 1 at hlen
    change index < last at hlt
    omega
  · exact Nat.lt_succ_self index

namespace Alike

variable {P : α → Prop} {Q Q' : α → Cursor → Prop} {R : β → Cursor → Prop} {x y : Parse α}

theorem of_yields (h : Yields tokens last P x c) : Alike tokens last (fun a _ => P a) x x c := by
  refine ⟨rfl, fun a c' hx => ?_⟩
  unfold Yields at h
  rw [hx] at h
  exact h

/-- A fault has no result. -/
theorem of_fails (h : Yields tokens last (fun _ => False) x c) : Alike tokens last Q x x c := by
  refine ⟨rfl, fun a c' hx => ?_⟩
  exact ((of_yields h).result a c' hx).2.elim

theorem mono (h : Alike tokens last Q x y c) (hQ : ∀ a c', Q a c' → Q' a c') :
    Alike tokens last Q' x y c :=
  ⟨h.same, fun a c' hy => (h.result a c' hy).imp_right (hQ a c')⟩

theorem pure {a : α} (hc : c.Within tokens last) (h : Q a c) :
    Alike tokens last Q (Pure.pure a) (Pure.pure a) c := by
  refine ⟨rfl, fun a' c' ha => ?_⟩
  cases ha
  exact ⟨hc.reaches, h⟩

/-- Two readers that move to the same place and are alike there. -/
theorem of_reaches {x' y' : Parse α} (hc : c.Reaches tokens last c') (hx : x c = x' c')
    (hy : y c = y' c') (h : Alike tokens last Q x' y' c') : Alike tokens last Q x y c := by
  constructor
  · rw [hx, hy, h.same]
  · intro a c'' ha
    rw [hy] at ha
    exact (h.result a c'' ha).imp_left hc.trans

/-- Where readers are alike that stand after a cursor, they stop after it. -/
theorem past {c₁ : Cursor} (h : Alike tokens last Q x y c₁) (hlt : c.index < c₁.index) :
    Alike tokens last c.Past x y c₁ :=
  ⟨h.same, fun a c' hy =>
    ⟨(h.result a c' hy).1, Nat.lt_of_lt_of_le hlt (h.result a c' hy).1.forward⟩⟩

theorem bind {f g : α → Parse β} (h : Alike tokens last Q x y c)
    (hf : ∀ a c', c.Reaches tokens last c' → Q a c' → Alike tokens last R (f a) (g a) c') :
    Alike tokens last R (x >>= f) (y >>= g) c := by
  cases hy : y c with
  | ok a c' =>
    have hx := h.same.trans hy
    obtain ⟨hreaches, hQ⟩ := h.result a c' hy
    exact of_reaches hreaches (bind_run hx f) (bind_run hy g) (hf a c' hreaches hQ)
  | error fault c' =>
    have hx := h.same.trans hy
    have hxf : (x >>= f) c = .error fault c' := by
      show EStateM.bind x f c = _
      rw [EStateM.bind, hx]
    have hyg : (y >>= g) c = .error fault c' := by
      show EStateM.bind y g c = _
      rw [EStateM.bind, hy]
    refine ⟨hxf.trans hyg.symm, fun b c'' hb => ?_⟩
    rw [hyg] at hb
    cases hb

/-- What is made of what two readers give. -/
theorem map {S : Cursor → Prop} (h : Alike tokens last (fun _ => S) x y c) (f : α → β) :
    Alike tokens last (fun _ => S) (do return f (← x)) (do return f (← y)) c :=
  h.bind fun _ _ hc hS => .pure hc.within hS

theorem get_bind {f g : Cursor → Parse β} (h : Alike tokens last R (f c) (g c) c) :
    Alike tokens last R (get >>= f) (get >>= g) c := ⟨h.same, h.result⟩

theorem skip_bind {f g : Unit → Parse β} (hc : c.Within tokens last) (h : c.kind ≠ .endOfFile)
    (hf : Alike tokens last R (f ()) (g ()) c.next) :
    Alike tokens last R (discard advance >>= f) (discard advance >>= g) c :=
  of_reaches (hc.next h) rfl rfl hf

theorem advance_bind {f g : Nat → Parse β} (hc : c.Within tokens last) (h : c.kind ≠ .endOfFile)
    (hf : Alike tokens last R (f c.index) (g c.index) c.next) :
    Alike tokens last R (advance >>= f) (advance >>= g) c :=
  of_reaches (hc.next h) rfl rfl hf

/-- A check that may fail stands before what is read next. -/
theorem check {b : Prop} [Decidable b] {x : Parse Unit} {f g : Unit → Parse β}
    (hx : Yields tokens last (fun _ => False) x c)
    (hf : ¬b → Alike tokens last R (f ()) (g ()) c) :
    Alike tokens last R (if b then x >>= f else f ()) (if b then x >>= g else g ()) c := by
  by_cases hb : b
  · rw [if_pos hb, if_pos hb]
    exact (of_fails (Q := fun _ _ => False) hx).bind fun _ _ _ h => h.elim
  · rw [if_neg hb, if_neg hb]
    exact hf hb

theorem orComplain_bind {e : Except Complaint α} {f g : α → Parse β} (hc : c.Within tokens last)
    (h : ∀ a, e = .ok a → Alike tokens last R (f a) (g a) c) :
    Alike tokens last R (orComplain e >>= f) (orComplain e >>= g) c := by
  cases e with
  | ok a => exact of_reaches hc.reaches rfl rfl (h a rfl)
  | error e =>
    refine (of_fails (Q := fun _ _ => False) (Yields.get_bind (Yields.throw hc ?_))).bind
      fun _ _ _ h => h.elim
    rw [token_complaint]
    exact hc.le

end Alike

/-! ## Leaves -/

theorem alike_simpleIdentifier (hc : c.Within tokens last) :
    Alike tokens last c.Past simpleIdentifier simpleIdentifier c := by
  refine .get_bind ?_
  split
  · next path hshape =>
    have hname := Cursor.goesOn (kind_of_identifier hshape) (by decide)
    split
    · exact .advance_bind hc hname (.pure (hc.next hname).within (hc.index_lt_next hname))
    · exact .of_fails (Yields.throw hc hc.le)
  · exact .of_fails (yields_failExpected hc _)

/-- Where an expression stops that ends at a cursor: after its own end or a terminator. -/
def Cursor.afterEnd (stop : Option Kind) (c : Cursor) : Cursor :=
  if c.kind = .terminator ∨ stop = some c.kind then c.next else c

theorem endExpression_of_finish {stop : Option Kind} {p : Progress} {e : Expr}
    (hopen : p.isOpen = false) (hfinish : Progress.finish p.output p.pending = .ok e)
    (hstop : ∀ wanted ∈ stop, c.kind = wanted) :
    endExpression stop p c = .ok e (c.afterEnd stop) := by
  have hleave : (if c.kind = .terminator ∨ stop = some c.kind then do
      discard advance
      return e
      else return e : Parse Expr) c = .ok e (c.afterEnd stop) := by
    unfold Cursor.afterEnd
    split <;> rfl
  unfold endExpression
  rw [get_bind, hopen, hfinish]
  cases stop with
  | none => exact hleave
  | some wanted =>
    have hkind := hstop wanted rfl
    simp only [hkind, ne_eq, not_true_eq_false, if_false] at hleave ⊢
    exact hleave

theorem endExpression_eq_ok_iff {stop : Option Kind} {p : Progress} {e : Expr} :
    endExpression stop p c = .ok e c' ↔
      p.isOpen = false ∧ Progress.finish p.output p.pending = .ok e ∧
        (∀ wanted ∈ stop, c.kind = wanted) ∧ c' = c.afterEnd stop := by
  constructor
  · intro h
    cases hopen : p.isOpen with
    | true =>
      unfold endExpression at h
      rw [get_bind, hopen] at h
      cases h
    | false =>
      cases hfinish : Progress.finish p.output p.pending with
      | error paren =>
        unfold endExpression at h
        rw [get_bind, hopen, hfinish] at h
        cases h
      | ok e' =>
        have hstop : ∀ wanted ∈ stop, c.kind = wanted := by
          rintro wanted ⟨⟩
          by_contra hkind
          unfold endExpression at h
          rw [get_bind, hopen, hfinish] at h
          simp only [ne_eq, hkind, not_false_eq_true, if_true] at h
          cases h
        rw [endExpression_of_finish hopen hfinish hstop] at h
        cases h
        exact ⟨rfl, rfl, hstop, rfl⟩
  · rintro ⟨hopen, hfinish, hstop, rfl⟩
    exact endExpression_of_finish hopen hfinish hstop

theorem alike_endExpression {stop : Option Kind} {p : Progress} (hc : c.Within tokens last)
    (hstop : stop ≠ some .endOfFile) :
    Alike tokens last (fun e _ => Progress.finish p.output p.pending = .ok e) (endExpression stop p)
      (endExpression stop p) c := by
  refine ⟨rfl, fun e c' he => ?_⟩
  obtain ⟨-, hfinish, -, rfl⟩ := endExpression_eq_ok_iff.mp he
  refine ⟨?_, hfinish⟩
  unfold Cursor.afterEnd
  split
  · next hend =>
    refine hc.next fun heof => ?_
    rw [heof] at hend
    exact hend.elim nofun hstop
  · exact hc.reaches

/-! ## Turns -/

/-- The readers of expressions, conditionals, blocks and statements are alike with `n` turns left. An
expression moves on, unless it ends at once. -/
structure Readers.Alike (tokens : List Token) (last n : Nat) (r r' : Readers) : Prop where
  expression : ∀ stop p {c}, stop ≠ some Kind.endOfFile → c.Within tokens last →
    4 * (last - c.index) + 1 ≤ n → Grammar.Alike tokens last
      (fun e c' => c.Past e c' ∨ Progress.finish p.output p.pending = .ok e)
      (r.expression stop p) (r'.expression stop p) c
  conditional : ∀ token {c}, c.Within tokens last → 4 * (last - c.index) + 2 ≤ n →
    Grammar.Alike tokens last c.Past (r.conditional token) (r'.conditional token) c
  block : ∀ done {c}, c.Within tokens last → 4 * (last - c.index) + 3 ≤ n →
    Grammar.Alike tokens last c.Past (r.block done) (r'.block done) c
  statement : ∀ {c}, c.Within tokens last → 4 * (last - c.index) + 2 ≤ n →
    Grammar.Alike tokens last c.Past r.statement r'.statement c

namespace Readers.Alike

variable {n : Nat} {r r' : Readers}

theorem expression_turn (h : Readers.Alike tokens last n r r') (stop : Option Kind) (p : Progress)
    (hstop : stop ≠ some .endOfFile) (hc : c.Within tokens last)
    (hn : 4 * (last - c.index) + 1 ≤ n + 1) :
    Grammar.Alike tokens last
      (fun e c' => c.Past e c' ∨ Progress.finish p.output p.pending = .ok e)
      (r.turn.expression stop p) (r'.turn.expression stop p) c := by
  -- Wherever the loop goes on, a token has been read.
  have hon : ∀ q {c'}, c'.Within tokens last → c.index < c'.index → Grammar.Alike tokens last
      (fun e c' => c.Past e c' ∨ Progress.finish p.output p.pending = .ok e)
      (r.expression stop q) (r'.expression stop q) c' := by
    intro q c' hc' hlt
    have hle := hc'.le
    exact ((h.expression stop q hstop hc' (by omega)).past hlt).mono fun _ _ => .inl
  refine .get_bind ?_
  split
  · next hend =>
    have hkind := Cursor.goesOn hend.1 (by decide)
    exact .skip_bind hc hkind (hon p (hc.next hkind).within (hc.index_lt_next hkind))
  · split
    · exact (alike_endExpression hc hstop).mono fun _ _ => .inr
    · next hgoes =>
      have hkind := kind_of_not_endsExpression hgoes
      have hnext := (hc.next hkind).within
      have hlt := hc.index_lt_next hkind
      split
      · refine .check (Yields.throw hc ?_) fun _ => .skip_bind hc hkind ?_
        · rw [token_complaint]
          exact hc.le
        · have hle := hnext.le
          exact (h.conditional c.index hnext (by omega)).bind fun branch c₁ hc₁ hpast =>
            .orComplain_bind hc₁.within fun q _ => hon q hc₁.within (Nat.lt_trans hlt hpast)
      · next path hshape =>
        split
        · next hparen =>
          have hnextKind := Cursor.goesOn (c.kind_next.trans hparen) (by decide)
          exact .orComplain_bind hc fun q _ => .skip_bind hc hkind <| .skip_bind hnext hnextKind <|
            hon q (hnext.next hnextKind).within (Nat.lt_trans hlt (hnext.index_lt_next hnextKind))
        · exact .orComplain_bind hc fun q _ => .skip_bind hc hkind (hon q hnext hlt)
      · exact .orComplain_bind hc fun q _ => .skip_bind hc hkind (hon q hnext hlt)

/-- What may not be empty moves on. -/
theorem value (h : Readers.Alike tokens last n r r') {stop : Option Kind}
    (hstop : stop ≠ some .endOfFile) (hc : c.Within tokens last)
    (hn : 4 * (last - c.index) + 1 ≤ n) :
    Grammar.Alike tokens last c.Past (r.value stop) (r'.value stop) c := by
  refine .get_bind ((h.expression stop .start hstop hc hn).bind fun e c₁ hc₁ he => ?_)
  refine .check (Yields.throw hc₁.within hc.le) fun hne => .pure hc₁.within ?_
  refine he.resolve_right fun hfinish => hne ?_
  cases hfinish
  rfl

theorem conditional_turn (h : Readers.Alike tokens last n r r') (token : Nat)
    (hc : c.Within tokens last) (hn : 4 * (last - c.index) + 2 ≤ n + 1) :
    Grammar.Alike tokens last c.Past (r.turn.conditional token) (r'.turn.conditional token) c := by
  refine (h.value (by decide) hc (by omega)).bind fun condition c₁ hc₁ hlt₁ => ?_
  have hle₁ := hc₁.within.le
  refine (h.block [] hc₁.within (by omega)).bind fun onTrue c₂ hc₂ hlt₂ => .get_bind ?_
  have hskipped : c₂.Reaches tokens last c₂.skipTerminators := hc₂.within.skipTerminators
  dsimp only
  split
  · exact .pure hc₂.within (Nat.lt_trans hlt₁ hlt₂)
  · next helse =>
    have helse := Cursor.goesOn (not_not.mp helse) (by decide)
    have hnext := hskipped.trans (hskipped.within.next helse)
    have hforward := hnext.forward
    have hle := hnext.within.le
    refine .of_reaches hnext rfl rfl (.get_bind ?_)
    split
    · next hif =>
      have hif := Cursor.goesOn hif (by decide)
      have hthen := (hnext.within.next hif).within
      have hlt := hnext.within.index_lt_next hif
      have hle := hthen.le
      have hbranch := (h.conditional c₂.skipTerminators.next.index hthen (by omega)).past
        (c := c) (by omega)
      exact .advance_bind hnext.within hif (hbranch.map _)
    · next hcurly =>
      have hcurly := Cursor.goesOn hcurly (by decide)
      have hthen := (hnext.within.next hcurly).within
      have hlt := hnext.within.index_lt_next hcurly
      have hle := hthen.le
      have hblock := (h.block [] hthen (by omega)).past (c := c) (by omega)
      exact .skip_bind hnext.within hcurly (hblock.map _)
    · exact .of_fails (yields_failExpected hnext.within _)

theorem block_turn (h : Readers.Alike tokens last n r r') (done : List Statement)
    (hc : c.Within tokens last) (hn : 4 * (last - c.index) + 3 ≤ n + 1) :
    Grammar.Alike tokens last c.Past (r.turn.block done) (r'.turn.block done) c := by
  refine (Grammar.Alike.of_yields (yields_skipTerminators hc)).bind
    fun _ c₁ hc₁ _ => .get_bind ?_
  have hforward := hc₁.forward
  split
  · next hclose =>
    have hclose := Cursor.goesOn hclose (by decide)
    exact .skip_bind hc₁.within hclose <| .pure (hc₁.within.next hclose).within <|
      Nat.lt_of_le_of_lt hforward (hc₁.within.index_lt_next hclose)
  · exact .of_fails (yields_failUnexpected hc₁.within)
  · refine (h.statement hc₁.within (by omega)).bind fun s c₂ hc₂ hlt => ?_
    have hle := hc₂.within.le
    exact (h.block _ hc₂.within (by omega)).past (by omega)

/-! A statement takes its last turn with a value, a block or the end of a line, after a token. -/

section

variable {c₁ : Cursor}

theorem value_past (h : Readers.Alike tokens last n r r') {stop : Option Kind}
    (hstop : stop ≠ some .endOfFile) (hc : c₁.Within tokens last) (hlt : c.index < c₁.index)
    (hn : 4 * (last - c.index) + 2 ≤ n + 1) :
    Grammar.Alike tokens last c.Past (r.value stop) (r'.value stop) c₁ := by
  have hle := hc.le
  exact (h.value hstop hc (by omega)).past hlt

theorem block_past (h : Readers.Alike tokens last n r r') (hc : c₁.Within tokens last)
    (hlt : c.index < c₁.index) (hn : 4 * (last - c.index) + 2 ≤ n + 1) :
    Grammar.Alike tokens last c.Past (r.block []) (r'.block []) c₁ := by
  have hle := hc.le
  exact (h.block [] hc (by omega)).past hlt

theorem end_past (s : Statement) (hc : c₁.Within tokens last) (hlt : c.index < c₁.index) :
    Grammar.Alike tokens last c.Past (do endStatement; return s) (do endStatement; return s) c₁ :=
  ((Grammar.Alike.of_yields (yields_endStatement hc)).past hlt).map fun _ => s

end

theorem evaluation (h : Readers.Alike tokens last n r r') (token : Nat) (hc : c.Within tokens last)
    (hn : 4 * (last - c.index) + 2 ≤ n + 1) :
    Grammar.Alike tokens last c.Past (r.evaluation token) (r'.evaluation token) c :=
  (show Grammar.Alike tokens last c.Past (r.value none) (r'.value none) c from
    h.value (by decide) hc (by omega)).map (Statement.eval token)

theorem declaration (h : Readers.Alike tokens last n r r') (hc : c.Within tokens last)
    (hn : 4 * (last - c.index) + 2 ≤ n + 1) :
    Grammar.Alike tokens last c.Past r.declaration r'.declaration c := by
  refine (alike_simpleIdentifier hc).bind fun (token, name) c₁ hc₁ hlt₁ =>
    (Grammar.Alike.of_yields <| yields_discard <|
      yields_expect hc₁.within (.mark .colon) (by decide)).bind fun _ c₂ hc₂ _ => .get_bind ?_
  have hlt : c.index < c₂.index := Nat.lt_of_lt_of_le hlt₁ hc₂.forward
  split
  · next hassign =>
    have hassign := Cursor.goesOn hassign (by decide)
    have hnext := hc₂.within.next hassign
    exact .skip_bind hc₂.within hassign <|
      (h.value_past (by decide) hnext.within (Nat.lt_of_lt_of_le hlt hnext.forward) hn).map _
  · refine (Grammar.Alike.of_yields (yields_typeName hc₂.within)).bind fun type c₃ hc₃ _ =>
      .get_bind ?_
    have hlt₃ := Nat.lt_of_lt_of_le hlt hc₃.forward
    split
    · next hassign =>
      have hassign := Cursor.goesOn hassign (by decide)
      have hnext := hc₃.within.next hassign
      exact .skip_bind hc₃.within hassign <|
        (h.value_past (by decide) hnext.within (Nat.lt_of_lt_of_le hlt₃ hnext.forward) hn).map _
    · exact end_past _ hc₃.within hlt₃
  · exact end_past _ hc₂.within hlt
  · exact end_past _ hc₂.within hlt
  · exact end_past _ hc₂.within hlt
  · exact .of_fails (yields_failExpected hc₂.within _)

theorem statement_turn (h : Readers.Alike tokens last n r r') (hc : c.Within tokens last)
    (hn : 4 * (last - c.index) + 2 ≤ n + 1) :
    Grammar.Alike tokens last c.Past r.turn.statement r'.turn.statement c := by
  -- Unless it is an expression, a statement starts with a token of its own.
  have hfirst : ∀ {kind}, c.kind = kind → kind ≠ .endOfFile →
      c.kind ≠ .endOfFile ∧ c.next.Within tokens last ∧ c.index < c.next.index := by
    intro kind hkind hne
    have hkind := Cursor.goesOn hkind hne
    exact ⟨hkind, (hc.next hkind).within, hc.index_lt_next hkind⟩
  refine .get_bind ?_
  dsimp only
  split
  · next hname =>
    obtain ⟨hname, hnext, hlt⟩ := hfirst hname (by decide)
    have hsecond : c.next.kind ≠ .endOfFile →
        c.next.next.Within tokens last ∧ c.index < c.next.next.index := by
      intro hkind
      exact ⟨(hnext.next hkind).within, Nat.lt_of_lt_of_le hlt (hnext.next hkind).forward⟩
    split
    · exact h.declaration hc hn
    · next hassign =>
      have hassign := Cursor.goesOn (c.kind_next.trans hassign) (by decide)
      obtain ⟨hthen, hlt₂⟩ := hsecond hassign
      exact .skip_bind hc hname <| .skip_bind hnext hassign <|
        (h.value_past (by decide) hthen hlt₂ hn).map _
    · split
      · next o ho =>
        have hmark : c.next.kind ≠ .endOfFile := by
          intro heof
          rw [← Cursor.kind_next, heof] at ho
          cases ho
        obtain ⟨hthen, hlt₂⟩ := hsecond hmark
        exact .skip_bind hc hname <| .advance_bind hnext hmark <|
          (h.value_past (by decide) hthen hlt₂ hn).map _
      · exact h.evaluation _ hc hn
  · next hreturn =>
    obtain ⟨hreturn, hnext, hlt⟩ := hfirst hreturn (by decide)
    have hle := hnext.le
    exact .skip_bind hc hreturn <|
      ((h.expression none .start (by decide) hnext (by omega)).past hlt).map _
  · refine (h.value (by decide) hc (by omega)).bind fun value _ hc₁ hpast => ?_
    split
    · exact .pure hc₁.within hpast
    · exact .pure hc₁.within hpast
  · next hwhile =>
    obtain ⟨hwhile, hnext, hlt⟩ := hfirst hwhile (by decide)
    refine .skip_bind hc hwhile (.get_bind ?_)
    split
    · next hcurly =>
      have hcurly := Cursor.goesOn hcurly (by decide)
      have hthen := hnext.next hcurly
      exact .skip_bind hnext hcurly <|
        (h.block_past hthen.within (Nat.lt_of_lt_of_le hlt hthen.forward) hn).map _
    · exact (h.value_past (by decide) hnext hlt hn).bind fun condition c₂ hc₂ hlt₂ =>
        (h.block_past hc₂.within hlt₂ hn).map _
  · next hbreak =>
    obtain ⟨hbreak, hnext, hlt⟩ := hfirst hbreak (by decide)
    exact .skip_bind hc hbreak <| (Grammar.Alike.of_yields (yields_exitAmount hnext)).bind
      fun _ _ hc₂ _ => end_past _ hc₂.within (Nat.lt_of_lt_of_le hlt hc₂.forward)
  · next hcontinue =>
    obtain ⟨hcontinue, hnext, hlt⟩ := hfirst hcontinue (by decide)
    exact .skip_bind hc hcontinue (end_past _ hnext hlt)
  · exact h.evaluation _ hc hn

theorem turn (h : Readers.Alike tokens last n r r') :
    Readers.Alike tokens last (n + 1) r.turn r'.turn where
  expression stop p := h.expression_turn stop p
  conditional token := h.conditional_turn token
  block done := h.block_turn done
  statement := h.statement_turn

end Readers.Alike

/-- After some turns it does not matter what would be called next. -/
theorem Readers.alike_iterate (tokens : List Token) (last n : Nat) (r r' : Readers) :
    Readers.Alike tokens last n (Readers.turn^[n] r) (Readers.turn^[n] r') := by
  induction n with
  | zero =>
    constructor
    · intro stop p c _ _ hn
      omega
    · intro token c _ hn
      omega
    · intro done c _ hn
      omega
    · intro c _ hn
      omega
  | succ n ih =>
    rw [Function.iterate_succ_apply', Function.iterate_succ_apply']
    exact ih.turn

end FrontEnd.Grammar
