import FrontEnd.Proofs.Grammar.Alike
import FrontEnd.Proofs.WellFormed.Items

/-!
# Reading comes to an end

In a file that ends, every reader that succeeds has moved on, and not past the end. So the
readers can call one another only so often, and each loop turns only so often: as often as
tokens are left, or four times that, whatever would be done in place of further calls.
-/

namespace FrontEnd.Grammar

open Token (Kind Mark Keyword)

variable {α : Type} {tokens : List Token} {last : Nat} {c : Cursor}

/-! ## Items -/

theorem alike_imports (hc : c.Within tokens last) (h : c.kind ≠ .endOfFile) :
    Alike tokens last c.Past imports imports c := by
  have hc₁ := (hc.next h).within
  refine .advance_bind hc h <| .get_bind ?_
  extract_lets finish read
  have hlt := hc.index_lt_next h
  have hfinish : ∀ {selected c'}, c.next.Reaches tokens last c' →
      Alike tokens last c.Past (finish selected) (finish selected) c' := by
    intro selected c' hc'
    refine ((Alike.of_yields (yields_endStatement hc'.within)).past ?_).map _
    exact Nat.lt_of_lt_of_le hlt hc'.forward
  refine .check (yields_failExpected hc₁ _) fun hname => ?_
  have hname := Cursor.goesOn (not_not.mp hname) (by decide)
  have hc₂ := hc₁.next hname
  refine .skip_bind hc₁ hname (.get_bind ?_)
  split
  · next hdot =>
    have hdot := Cursor.goesOn hdot (by decide)
    have hc₃ := hc₂.trans (hc₂.within.next hdot)
    refine .skip_bind hc₂.within hdot <| (Alike.of_yields <| yields_discard <|
      yields_expect hc₃.within (.mark .openBracket) (by decide)).bind fun _ c₄ hc₄ _ => .get_bind ?_
    exact (Alike.of_yields (yields_selectedFrom hc₄.within _ (List.forall_mem_nil _))).bind
      fun selected c₅ hc₅ _ => hfinish (hc₃.trans (hc₄.trans hc₅))
  · exact hfinish hc₂

theorem alike_submodule (hc : c.Within tokens last) (h : c.kind ≠ .endOfFile) :
    Alike tokens last c.Past submodule submodule c := by
  have hnext := hc.next h
  refine .advance_bind hc h <| (Alike.of_yields (yields_simpleIdentifier hnext.within)).bind
    fun (_, name) c₁ hc₁ _ => ((Alike.of_yields (yields_endStatement hc₁.within)).past ?_).map _
  exact Nat.lt_of_lt_of_le (hc.index_lt_next h) hc₁.forward

/-- An item starts with a word of its own, or with the word that makes it public. -/
theorem alike_item (hc : c.Within tokens last) : Alike tokens last c.Past item item c := by
  refine .get_bind ?_
  extract_lets isPublic read
  have hread : ∀ {c₁}, c.Reaches tokens last c₁ →
      Alike tokens last c.Past (read ()) (read ()) c₁ := by
    intro c₁ hreaches
    have hc₁ := hreaches.within
    have hfirst : ∀ {kind}, c₁.kind = kind → kind ≠ .endOfFile →
        c₁.kind ≠ .endOfFile ∧ c₁.next.Within tokens last ∧ c.index < c₁.next.index := by
      intro kind hkind hne
      have hkind := Cursor.goesOn hkind hne
      exact ⟨hkind, (hc₁.next hkind).within,
        Nat.lt_of_le_of_lt hreaches.forward (hc₁.index_lt_next hkind)⟩
    refine .get_bind ?_
    split
    · next hfn =>
      obtain ⟨hfn, hnext, hlt⟩ := hfirst hfn (by decide)
      exact .skip_bind hc₁ hfn (((Alike.of_yields (yields_function hnext isPublic)).past hlt).map _)
    · next hglobal =>
      obtain ⟨hglobal, hnext, hlt⟩ := hfirst hglobal (by decide)
      exact .skip_bind hc₁ hglobal
        (((Alike.of_yields (yields_global hnext true isPublic)).past hlt).map _)
    · next hconst =>
      obtain ⟨hconst, hnext, hlt⟩ := hfirst hconst (by decide)
      exact .skip_bind hc₁ hconst
        (((Alike.of_yields (yields_global hnext false isPublic)).past hlt).map _)
    · next himport =>
      have himport := Cursor.goesOn himport (by decide)
      split
      · exact .of_fails (yields_failExpected hc₁ _)
      · exact ((alike_imports hc₁ himport).mono fun _ _ hlt =>
          Nat.lt_of_le_of_lt hreaches.forward hlt).map _
    · next hmod =>
      have hmod := Cursor.goesOn hmod (by decide)
      split
      · exact .of_fails (yields_failExpected hc₁ _)
      · exact ((alike_submodule hc₁ hmod).mono fun _ _ hlt =>
          Nat.lt_of_le_of_lt hreaches.forward hlt).map _
    · exact .of_fails (yields_failExpected hc₁ _)
  split
  · next hpub =>
    have hpub := Cursor.goesOn (eq_of_beq hpub) (by decide)
    exact .skip_bind hc hpub (hread (hc.next hpub))
  · exact hread hc.reaches

/-! ## Loops -/

/-- Two ways to go on with a loop do the same with `n` turns left: a turn reads a token. -/
def GoOnAlike (tokens : List Token) (last n : Nat) (read read' : List α → Parse (List α)) : Prop :=
  ∀ done {c}, c.Within tokens last → last - c.index + 1 ≤ n →
    Alike tokens last (fun _ _ => True) (read done) (read' done) c

theorem GoOnAlike.params {n : Nat} {read read' : List Param → Parse (List Param)}
    (h : GoOnAlike tokens last n read read') :
    GoOnAlike tokens last (n + 1) (paramsTurn read) (paramsTurn read') := by
  intro done c hc hn
  refine .get_bind ?_
  split
  · next hclose =>
    have hclose := Cursor.goesOn hclose (by decide)
    exact .skip_bind hc hclose (.pure (hc.next hclose).within trivial)
  · refine (alike_simpleIdentifier hc).bind fun (token, name) c₁ hc₁ hlt =>
      (Alike.of_yields <| yields_discard <|
        yields_expect hc₁.within (.mark .colon) (by decide)).bind fun _ c₂ hc₂ _ =>
      (Alike.of_yields (yields_typeName hc₂.within)).bind fun type c₃ hc₃ _ =>
      (Alike.of_yields (yields_skipTerminators hc₃.within)).bind fun _ c₄ hc₄ _ => .get_bind ?_
    have hon : ∀ {c'}, c₄.Reaches tokens last c' → Alike tokens last (fun _ _ => True)
        (read (⟨token, name, type⟩ :: done)) (read' (⟨token, name, type⟩ :: done)) c' := by
      intro c' hc'
      have hle := hc'.within.le
      have hreaches := hc₂.trans (hc₃.trans (hc₄.trans hc'))
      have hlt' : c.index < c'.index := Nat.lt_of_lt_of_le hlt hreaches.forward
      exact h _ hc'.within (by omega)
    split
    · next hcomma =>
      have hcomma := Cursor.goesOn hcomma (by decide)
      have hnext := hc₄.within.next hcomma
      exact .skip_bind hc₄.within hcomma <|
        (Alike.of_yields (yields_skipTerminators hnext.within)).bind
          fun _ _ hc₅ _ => hon (hnext.trans hc₅)
    · exact hon hc₄.within.reaches
    · exact (Alike.of_fails (Q := fun _ _ => False) (yields_failExpected hc₄.within _)).bind
        fun _ _ _ h => h.elim

theorem GoOnAlike.selected {n : Nat}
    {read read' : List (Nat × String) → Parse (List (Nat × String))} (h : GoOnAlike tokens last n read read') :
    GoOnAlike tokens last (n + 1) (selectedTurn read) (selectedTurn read') := by
  intro done c hc hn
  refine (Alike.of_yields (yields_skipTerminators hc)).bind fun _ c₁ hc₁ _ =>
    (alike_simpleIdentifier hc₁.within).bind fun name c₂ hc₂ hlt =>
    (Alike.of_yields (yields_skipTerminators hc₂.within)).bind fun _ c₃ hc₃ _ => .get_bind ?_
  have hlt₃ : c.index < c₃.index :=
    Nat.lt_of_lt_of_le (Nat.lt_of_le_of_lt hc₁.forward hlt) hc₃.forward
  split
  · next hcomma =>
    have hcomma := Cursor.goesOn hcomma (by decide)
    have hnext := hc₃.within.next hcomma
    have hle := hnext.within.le
    have hforward := hnext.forward
    exact .skip_bind hc₃.within hcomma (h _ hnext.within (by omega))
  · next hclose =>
    have hclose := Cursor.goesOn hclose (by decide)
    exact .skip_bind hc₃.within hclose (.pure (hc₃.within.next hclose).within trivial)
  · exact .of_fails (yields_failExpected hc₃.within _)

theorem GoOnAlike.items {n : Nat} {read read' : List Item → Parse (List Item)}
    (h : GoOnAlike tokens last n read read') :
    GoOnAlike tokens last (n + 1) (itemsTurn read) (itemsTurn read') := by
  intro done c hc hn
  refine (Alike.of_yields (yields_skipTerminators hc)).bind fun _ c₁ hc₁ _ => .get_bind ?_
  split
  · refine (alike_item hc₁.within).bind fun i c₂ hc₂ hlt => ?_
    have hforward := hc₁.forward
    have hlt : c₁.index < c₂.index := hlt
    have hle := hc₂.within.le
    exact h _ hc₂.within (by omega)
  · exact .pure hc₁.within trivial

/-- After some turns of a loop it does not matter what would be done next. -/
theorem goOnAlike_iterate {turn : (List α → Parse (List α)) → List α → Parse (List α)}
    (hturn : ∀ {n read read'}, GoOnAlike tokens last n read read' →
      GoOnAlike tokens last (n + 1) (turn read) (turn read'))
    (n : Nat) (read read' : List α → Parse (List α)) :
    GoOnAlike tokens last n (turn^[n] read) (turn^[n] read') := by
  induction n with
  | zero =>
    intro done c _ hn
    omega
  | succ n ih =>
    rw [Function.iterate_succ_apply', Function.iterate_succ_apply']
    exact hturn ih

/-! ## Whole files -/

/-- Where a reader succeeds that starts at a cursor, it stops further on, and not past `last`. -/
def MovesOn (last : Nat) (x : Parse α) (c : Cursor) : Prop :=
  ∀ a c', x c = .ok a c' → c.index < c'.index ∧ c'.index ≤ last

theorem Alike.movesOn {x y z : Parse α} (h : Alike tokens last c.Past x y c) (hz : z c = y c) :
    MovesOn last z c := by
  intro a c' ha
  obtain ⟨hreaches, hlt⟩ := h.result a c' (hz ▸ ha)
  exact ⟨hlt, hreaches.within.le⟩

/-- Reading tokens, of which the one at `last` ends the file, moves on with everything that is read,
and comes to an end: after some number of turns it does not matter what would be done next. -/
structure ComesToAnEnd (tokens : List Token) (last : Nat) : Prop where
  item : ∀ c, c.In tokens → c.index ≤ last → MovesOn last Grammar.item c
  statement : ∀ c, c.In tokens → c.index ≤ last → MovesOn last Grammar.statement c
  block : ∀ c, c.In tokens → c.index ≤ last → MovesOn last Grammar.block c
  conditional : ∀ c token, c.In tokens → c.index ≤ last → MovesOn last (Grammar.conditional token) c
  expression : ∀ c stop, stop ≠ some .endOfFile → c.In tokens → c.index ≤ last →
    MovesOn last (valueExpression stop) c
  readerTurns : ∀ r c n, c.In tokens → c.index ≤ last → c.fuel ≤ n →
    (Readers.turn^[n] r).statement c = Grammar.statement c ∧
    (Readers.turn^[n] r).block [] c = Grammar.block c ∧
    (∀ token, (Readers.turn^[n] r).conditional token c = Grammar.conditional token c) ∧
    ∀ stop, stop ≠ some .endOfFile →
      (Readers.turn^[n] r).expression stop .start c = Grammar.expression stop c
  loopTurns : ∀ c n, c.In tokens → c.index ≤ last → c.remaining + 1 ≤ n →
    (∀ read, paramsTurn^[n] read [] c = paramsFrom (c.remaining + 1) [] c) ∧
    ∀ read, selectedTurn^[n] read [] c = selectedFrom (c.remaining + 1) [] c
  itemTurns : ∀ read n, tokens.length + 1 ≤ n → ∃ start, Cursor.ofTokens? tokens = some start ∧
    items tokens = match itemsTurn^[n] read [] start with
      | .ok is _ => .ok is
      | .error fault _ => .error fault

theorem Cursor.Within.remaining_ge (hc : c.Within tokens last) : last - c.index ≤ c.remaining := by
  obtain ⟨t, ht, -⟩ := hc.ends
  obtain ⟨hlast, -⟩ := List.getElem?_eq_some_iff.mp ht
  have hlen := congrArg List.length hc.inTokens
  rw [List.length_drop, List.length_cons] at hlen
  rw [Cursor.remaining]
  omega

theorem Cursor.Within.fuel_ge (hc : c.Within tokens last) : 4 * (last - c.index) + 3 ≤ c.fuel := by
  have hle := hc.remaining_ge
  rw [Cursor.fuel]
  omega

theorem iterate_eq_of_le {γ : Type} {f : γ → γ} {m n : Nat} (h : m ≤ n) (a : γ) :
    f^[n] a = f^[m] (f^[n - m] a) := by
  rw [← Function.iterate_add_apply, Nat.add_sub_cancel' h]

/-- With enough turns left the readers do what those with fuel do. -/
theorem Readers.alike_readers (tokens : List Token) (last : Nat) (r : Readers) {m n : Nat}
    (h : m ≤ n) : Readers.Alike tokens last m (Readers.turn^[n] r) (readers m) := by
  rw [iterate_eq_of_le h, readers_eq_iterate]
  exact alike_iterate tokens last m _ _

theorem nonEmpty_congr {x y : Parse Expr} (h : x c = y c) : nonEmpty x c = nonEmpty y c := by
  show EStateM.bind x _ c = EStateM.bind y _ c
  rw [EStateM.bind, EStateM.bind, h]

theorem valueExpression_eq (stop : Option Kind) (c : Cursor) :
    valueExpression stop c = (readers c.fuel).value stop c := nonEmpty_congr rfl

/-- **Reading moves on and comes to an end.** -/
theorem comesToAnEnd {t : Token} (ht : tokens[last]? = some t) (hend : t.kind = .endOfFile) :
    ComesToAnEnd tokens last := by
  have hwithin : ∀ {c : Cursor}, c.In tokens → c.index ≤ last → c.Within tokens last :=
    fun hin hle => ⟨hin, hle, t, ht, hend⟩
  have hreaders : ∀ c : Cursor, Readers.Alike tokens last c.fuel (readers c.fuel)
      (readers c.fuel) := by
    intro c
    have h := Readers.alike_readers tokens last (readers 0) (Nat.le_refl c.fuel)
    rwa [← readers_eq_iterate] at h
  constructor
  case item => exact fun c hin hle => (alike_item (hwithin hin hle)).movesOn rfl
  case statement =>
    intro c hin hle
    have hc := hwithin hin hle
    have hfuel := hc.fuel_ge
    exact ((hreaders c).statement hc (by omega)).movesOn rfl
  case block =>
    intro c hin hle
    have hc := hwithin hin hle
    exact ((hreaders c).block [] hc hc.fuel_ge).movesOn rfl
  case conditional =>
    intro c token hin hle
    have hc := hwithin hin hle
    have hfuel := hc.fuel_ge
    exact ((hreaders c).conditional token hc (by omega)).movesOn rfl
  case expression =>
    intro c stop hstop hin hle
    have hc := hwithin hin hle
    have hfuel := hc.fuel_ge
    exact ((hreaders c).value hstop hc (by omega)).movesOn (valueExpression_eq stop c)
  case readerTurns =>
    intro r c n hin hle hn
    have hc := hwithin hin hle
    have hfuel := hc.fuel_ge
    have halike := Readers.alike_readers tokens last r hn
    exact ⟨(halike.statement hc (by omega)).same, (halike.block [] hc hfuel).same,
      fun token => (halike.conditional token hc (by omega)).same,
      fun stop hstop => (halike.expression stop .start hstop hc (by omega)).same⟩
  case loopTurns =>
    intro c n hin hle hn
    have hc := hwithin hin hle
    have hremaining := hc.remaining_ge
    constructor
    · intro read
      rw [iterate_eq_of_le hn, paramsFrom_eq_iterate]
      exact (goOnAlike_iterate GoOnAlike.params _ _ _ [] hc (by omega)).same
    · intro read
      rw [iterate_eq_of_le hn, selectedFrom_eq_iterate]
      exact (goOnAlike_iterate GoOnAlike.selected _ _ _ [] hc (by omega)).same
  case itemTurns =>
    intro read n hn
    cases tokens with
    | nil => cases ht
    | cons first rest =>
      have hc : Cursor.Within (first :: rest) last ⟨0, first, rest⟩ :=
        hwithin rfl (Nat.zero_le _)
      have hremaining := hc.remaining_ge
      refine ⟨⟨0, first, rest⟩, rfl, ?_⟩
      rw [iterate_eq_of_le hn, (goOnAlike_iterate GoOnAlike.items _ _ (itemsFrom 0) [] hc ?_).same,
        ← itemsFrom_eq_iterate]
      · rfl
      · show last - 0 + 1 ≤ rest.length + 1 + 1
        exact Nat.succ_le_succ (Nat.le_succ_of_le hremaining)

theorem comesToAnEnd_unfinished :
    let name : Token := ⟨.identifier ["f"], "f", ⟨3, 4⟩⟩
    let eof : Token := ⟨.endOfFile, "EOF", ⟨9, 9⟩⟩
    let tokens : List Token := [⟨.keyword .fnKw, "fn", ⟨0, 2⟩⟩, name,
      ⟨.mark .openParen, "(", ⟨4, 5⟩⟩, ⟨.mark .closeParen, ")", ⟨5, 6⟩⟩, ⟨.mark .openCurly, "\x7b", ⟨6, 7⟩⟩,
      ⟨.keyword .ifKw, "if", ⟨7, 9⟩⟩, eof]
    tokens[6]? = some eof ∧ eof.kind = .endOfFile ∧ ComesToAnEnd tokens 6 :=
  ⟨rfl, rfl, comesToAnEnd rfl rfl⟩

end FrontEnd.Grammar
