import FrontEnd.Grammar.Item
import FrontEnd.Proofs.WellFormed.Reading

/-!
# Items that are read are well formed

The readers of items stay inside the file as well. So the items that a list of tokens
spells refer to tokens of the list and hold complete expressions only, and where they
cannot be read the fault is at a token of the list.
-/

namespace FrontEnd

namespace Grammar

open Token (Kind Mark Keyword)

variable {tokens : List Token} {last : Nat} {c : Cursor}

theorem yields_paramsFrom (hc : c.Within tokens last) (fuel : Nat) {done : List Param}
    (hdone : ∀ p ∈ done, p.token ≤ last) :
    Yields tokens last (fun ps => ∀ p ∈ ps, p.token ≤ last) (paramsFrom fuel done) c := by
  induction fuel generalizing c done with
  | zero => exact yields_failUnexpected hc
  | succ fuel ih =>
    rw [paramsFrom]
    refine Yields.get_bind ?_
    split
    · next hclose =>
      have hclose := Cursor.goesOn hclose (by decide)
      refine Yields.skip_bind hc hclose (Yields.pure (hc.next hclose).within ?_)
      exact fun p hp => hdone p (List.mem_reverse.mp hp)
    · refine (yields_simpleIdentifier hc).bind fun (token, name) _ hc₁ ht =>
        (yields_discard (yields_expect hc₁ (.mark .colon) (by decide))).bind fun _ _ hc₂ _ =>
        (yields_typeName hc₂).bind fun type _ hc₃ _ =>
        (yields_skipTerminators hc₃).bind fun _ _ hc₄ _ => Yields.get_bind ?_
      have hdone' : ∀ p ∈ ⟨token, name, type⟩ :: done, p.token ≤ last :=
        List.forall_mem_cons.mpr ⟨ht, hdone⟩
      split
      · next hcomma =>
        have hcomma := Cursor.goesOn hcomma (by decide)
        exact Yields.skip_bind hc₄ hcomma <|
          (yields_skipTerminators (hc₄.next hcomma).within).bind fun _ _ hc₅ _ => ih hc₅ hdone'
      · exact ih hc₄ hdone'
      · exact (yields_failExpected (P := fun _ => False) hc₄ _).bind fun _ _ _ h => h.elim

theorem yields_block (hc : c.Within tokens last) :
    Yields tokens last (Block.WellFormed (· ≤ last)) block c := by
  have hblock := (yieldsWellFormed tokens last c.fuel).block hc (List.forall_mem_nil _)
  unfold Yields at hblock ⊢
  unfold block
  exact hblock

theorem yields_function (hc : c.Within tokens last) (isPublic : Bool) :
    Yields tokens last (fun f => Item.WellFormed (· ≤ last) (.function f)) (function isPublic) c := by
  refine (yields_simpleIdentifier hc).bind fun (token, name) _ hc₁ ht =>
    (yields_discard (yields_expect hc₁ (.mark .openParen) (by decide))).bind fun _ _ hc₂ _ =>
    (yields_skipTerminators hc₂).bind fun _ _ hc₃ _ => Yields.get_bind <|
    (yields_paramsFrom hc₃ _ (List.forall_mem_nil _)).bind fun params c₄ hc₄ hparams => ?_
  extract_lets finish typed
  have hfinish : ∀ {returnType c'}, c'.Within tokens last →
      Yields tokens last (fun f => Item.WellFormed (· ≤ last) (.function f))
        (finish returnType) c' := by
    refine fun {returnType c'} hc' =>
      (yields_skipTerminators hc').bind fun _ _ hc₅ _ => Yields.get_bind ?_
    extract_lets read
    refine Yields.check (yields_failExpected hc₅ _) fun hcurly => ?_
    have hcurly := Cursor.goesOn (not_not.mp hcurly) (by decide)
    exact Yields.skip_bind hc₅ hcurly <|
      (yields_block (hc₅.next hcurly).within).bind fun _ _ hc₆ hbody =>
        Yields.pure hc₆ ⟨ht, hparams, hbody⟩
  refine Yields.check (Yields.throw hc₄ ht) fun _ => Yields.get_bind ?_
  split
  · next hcolon =>
    have hcolon := Cursor.goesOn hcolon (by decide)
    exact Yields.skip_bind hc₄ hcolon <|
      (yields_typeName (hc₄.next hcolon).within).bind fun _ _ hc₆ _ => hfinish hc₆
  · exact hfinish hc₄

theorem yields_global (hc : c.Within tokens last) (isMutable isPublic : Bool) :
    Yields tokens last (fun g => Item.WellFormed (· ≤ last) (.global g))
      (global isMutable isPublic) c :=
  (yields_simpleIdentifier hc).bind fun _ _ hc₁ ht =>
    (yields_discard (yields_expect hc₁ (.mark .colon) (by decide))).bind fun _ _ hc₂ _ =>
    (yields_typeName hc₂).bind fun _ _ hc₃ _ =>
    (yields_endStatement hc₃).bind fun _ _ hc₄ _ => Yields.pure hc₄ ht

theorem yields_selectedFrom (hc : c.Within tokens last) (fuel : Nat)
    {done : List (Nat × String)} (hdone : ∀ n ∈ done, n.1 ≤ last) :
    Yields tokens last (fun ns => ∀ n ∈ ns, n.1 ≤ last) (selectedFrom fuel done) c := by
  induction fuel generalizing c done with
  | zero => exact yields_failUnexpected hc
  | succ fuel ih =>
    rw [selectedFrom]
    refine (yields_skipTerminators hc).bind fun _ _ hc₁ _ =>
      (yields_simpleIdentifier hc₁).bind fun name _ hc₂ ht =>
      (yields_skipTerminators hc₂).bind fun _ _ hc₃ _ => Yields.get_bind ?_
    have hdone' : ∀ n ∈ name :: done, n.1 ≤ last := List.forall_mem_cons.mpr ⟨ht, hdone⟩
    split
    · next hcomma =>
      have hcomma := Cursor.goesOn hcomma (by decide)
      exact Yields.skip_bind hc₃ hcomma (ih (hc₃.next hcomma).within hdone')
    · next hclose =>
      have hclose := Cursor.goesOn hclose (by decide)
      refine Yields.skip_bind hc₃ hclose (Yields.pure (hc₃.next hclose).within ?_)
      exact fun n hn => hdone' n (List.mem_reverse.mp hn)
    · exact yields_failExpected hc₃ _

theorem yields_imports (hc : c.Within tokens last) (h : c.kind ≠ .endOfFile) :
    Yields tokens last (fun i => Item.WellFormed (· ≤ last) (.imports i)) imports c := by
  have hc₁ := (hc.next h).within
  refine Yields.advance_bind hc h (Yields.get_bind ?_)
  extract_lets finish read
  have hfinish : ∀ {selected c'}, c'.Within tokens last → (∀ n ∈ selected, n.1 ≤ last) →
      Yields tokens last (fun i => Item.WellFormed (· ≤ last) (.imports i))
        (finish selected) c' := fun {selected c'} hc' hselected =>
    (yields_endStatement hc').bind fun _ _ hc₃ _ => Yields.pure hc₃ ⟨hc.le, hselected⟩
  refine Yields.check (yields_failExpected hc₁ _) fun hname => ?_
  have hname := Cursor.goesOn (not_not.mp hname) (by decide)
  have hc₂ := (hc₁.next hname).within
  refine Yields.skip_bind hc₁ hname (Yields.get_bind ?_)
  split
  · next hdot =>
    have hdot := Cursor.goesOn hdot (by decide)
    exact Yields.skip_bind hc₂ hdot <|
      (yields_discard (yields_expect (hc₂.next hdot).within (.mark .openBracket) (by decide))).bind
        fun _ _ hc₃ _ => Yields.get_bind <|
      (yields_selectedFrom hc₃ _ (List.forall_mem_nil _)).bind
        fun _ _ hc₄ hselected => hfinish hc₄ hselected
  · exact hfinish hc₂ (List.forall_mem_nil _)

theorem yields_submodule (hc : c.Within tokens last) (h : c.kind ≠ .endOfFile) :
    Yields tokens last (fun s => Item.WellFormed (· ≤ last) (.submodule s)) submodule c :=
  Yields.advance_bind hc h <| (yields_simpleIdentifier (hc.next h).within).bind fun _ _ hc₁ _ =>
    (yields_endStatement hc₁).bind fun _ _ hc₂ _ => Yields.pure hc₂ hc.le

theorem yields_item (hc : c.Within tokens last) :
    Yields tokens last (Item.WellFormed (· ≤ last)) item c := by
  refine Yields.get_bind ?_
  extract_lets isPublic read
  have hread : ∀ {c'}, c'.Within tokens last →
      Yields tokens last (Item.WellFormed (· ≤ last)) (read ()) c' := by
    intro c' hc'
    refine Yields.get_bind ?_
    split
    · next hfn =>
      have hfn := Cursor.goesOn hfn (by decide)
      exact Yields.skip_bind hc' hfn <|
        (yields_function (hc'.next hfn).within isPublic).bind fun _ _ hc₁ hf => Yields.pure hc₁ hf
    · next hglobal =>
      have hglobal := Cursor.goesOn hglobal (by decide)
      exact Yields.skip_bind hc' hglobal <|
        (yields_global (hc'.next hglobal).within _ isPublic).bind fun _ _ hc₁ hg =>
          Yields.pure hc₁ hg
    · next hconst =>
      have hconst := Cursor.goesOn hconst (by decide)
      exact Yields.skip_bind hc' hconst <|
        (yields_global (hc'.next hconst).within _ isPublic).bind fun _ _ hc₁ hg =>
          Yields.pure hc₁ hg
    · next himport =>
      split
      · exact yields_failExpected hc' _
      · exact (yields_imports hc' (Cursor.goesOn himport (by decide))).bind fun _ _ hc₁ hi =>
          Yields.pure hc₁ hi
    · next hmod =>
      split
      · exact yields_failExpected hc' _
      · exact (yields_submodule hc' (Cursor.goesOn hmod (by decide))).bind fun _ _ hc₁ hs =>
          Yields.pure hc₁ hs
    · exact yields_failExpected hc' _
  split
  · next hpub =>
    have hpub := Cursor.goesOn (eq_of_beq hpub) (by decide)
    exact Yields.skip_bind hc hpub (hread (hc.next hpub).within)
  · exact hread hc

theorem yields_itemsFrom (hc : c.Within tokens last) (fuel : Nat) {done : List Item}
    (hdone : ∀ i ∈ done, i.WellFormed (· ≤ last)) :
    Yields tokens last (fun is => ∀ i ∈ is, i.WellFormed (· ≤ last)) (itemsFrom fuel done) c := by
  induction fuel generalizing c done with
  | zero => exact yields_failUnexpected hc
  | succ fuel ih =>
    rw [itemsFrom]
    refine (yields_skipTerminators hc).bind fun _ _ hc₁ _ => Yields.get_bind ?_
    split
    · exact (yields_item hc₁).bind fun i _ hc₂ hi => ih hc₂ (List.forall_mem_cons.mpr ⟨hi, hdone⟩)
    · exact Yields.pure hc₁ fun i hi => hdone i (List.mem_reverse.mp hi)

/-- The items of a list of tokens up to the one that ends the file. -/
theorem wellFormed_items {t : Token} (ht : tokens[last]? = some t) (hend : t.kind = .endOfFile) :
    match items tokens with
    | .ok is => ∀ i ∈ is, i.WellFormed (· ≤ last)
    | .error fault => fault.token ≤ last := by
  unfold items
  cases tokens with
  | nil => cases ht
  | cons first rest =>
    have hstart : Cursor.Within (first :: rest) last ⟨0, first, rest⟩ :=
      ⟨rfl, Nat.zero_le _, t, ht, hend⟩
    have hyields := yields_itemsFrom hstart (rest.length + 2)
      (List.forall_mem_nil (Item.WellFormed (· ≤ last)))
    unfold Yields at hyields
    rw [Cursor.ofTokens?]
    dsimp only [Cursor.remaining]
    cases hread : itemsFrom (rest.length + 2) [] ⟨0, first, rest⟩ with
    | ok is c' =>
      rw [hread] at hyields
      exact hyields.2
    | error fault c' =>
      rw [hread] at hyields
      exact hyields.2

end Grammar

/-- The last token of a file, and only that, ends it. -/
theorem Token.Buffer.exists_of_scan {file text : String} {buffer : Token.Buffer}
    (h : Buffer.scan file text = .ok buffer) :
    ∃ ts eof, buffer = ⟨file, ts ++ [eof]⟩ ∧ eof.kind = .endOfFile := by
  unfold Buffer.scan at h
  dsimp only at h
  split at h
  · cases h
  · next done offset hassemble =>
    split at h
    · cases h
    · cases h
      refine ⟨done.reverse, ⟨.endOfFile, "EOF", ⟨offset, offset⟩⟩, ?_, rfl⟩
      rw [List.reverse_cons]

/-- All tokens of the items of a text are tokens of its buffer, and all their expressions are
complete. A fault is at a token of the buffer. -/
theorem Token.Buffer.wellFormed_items {file text : String} {buffer : Token.Buffer}
    (h : Buffer.scan file text = .ok buffer) :
    match Grammar.items buffer.tokens with
    | .ok is => ∀ i ∈ is, i.WellFormed (· < buffer.tokens.length)
    | .error fault => fault.token < buffer.tokens.length := by
  obtain ⟨ts, eof, rfl, hend⟩ := Buffer.exists_of_scan h
  have hlast : (ts ++ [eof])[ts.length]? = some eof := by simp
  have hread := Grammar.wellFormed_items hlast hend
  have hlt : ∀ t, t < (ts ++ [eof]).length ↔ t ≤ ts.length := by
    intro t
    rw [List.length_append, List.length_singleton, Nat.lt_succ_iff]
  simpa only [hlt] using hread

end FrontEnd
