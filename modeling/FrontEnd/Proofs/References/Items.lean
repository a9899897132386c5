import FrontEnd.Proofs.References.Spelling

/-!
# The names of items stand in the text

The name of every function, parameter and global that has been read stands at its token,
and so does every request of an item: an `import` with the path after it, a `mod` with
the name after it, or a dotted name of a body. A list of tokens that spells no items is
at fault with its grammar.
-/

namespace FrontEnd

theorem Token.shape_of_kind_keyword {t : Token} {k : Keyword} (h : t.kind = .keyword k) :
    t.shape = .keyword k := by
  cases hshape : t.shape <;> simp [Token.kind, hshape, Token.Shape.kind] at h ⊢
  · split at h <;> cases h
  · exact h

namespace Grammar

/-- The names that an item declares, mentions or asks for stand in a list of tokens. -/
inductive ItemSpelled (tokens : List Token) : Item → Prop
  | function {f : Function} (hname : SpelledAt tokens f.token [f.name])
    (hparams : ∀ p ∈ f.params, SpelledAt tokens p.token [p.name])
    (hbody : Spelled tokens (Block.mentions f.body)) : ItemSpelled tokens (.function f)
  | global {g : Global} (hname : SpelledAt tokens g.token [g.name]) : ItemSpelled tokens (.global g)
  | imports {i : Import}
    (h : ∀ own, Request.SpelledIn own tokens ⟨i.token, i.target, i.target, false⟩) :
    ItemSpelled tokens (.imports i)
  | submodule {s : Submodule}
    (h : ∀ own, Request.SpelledIn own tokens ⟨s.token, own.child s.name, .single s.name, false⟩) :
    ItemSpelled tokens (.submodule s)

open Token (Kind Mark Keyword)

variable {tokens : List Token} {c : Cursor}

/-- A dotted name is asked for where it stands. -/
theorem Spelled.request {b : Block} (h : Spelled tokens (Block.mentions b)) (own : ModulePath) :
    ∀ q ∈ (Block.dottedNames b).map DottedName.request, q.SpelledIn own tokens := by
  intro q hq
  obtain ⟨d, hd, rfl⟩ := List.mem_map.mp hq
  rw [Block.dottedNames_eq] at hd
  obtain ⟨m, hm, hd⟩ := List.mem_flatMap.mp hd
  obtain ⟨hdotted, rfl⟩ := mem_dottedName.mp hd
  obtain ⟨⟨t, ht, hspells⟩, -⟩ := h m hm
  generalize m.path = path at hdotted hspells ⊢
  cases hspells with
  | path hpath => exact .name ht hpath hdotted
  | simple => simp at hdotted

/-- What an item asks for is spelled where it is declared. -/
theorem ItemSpelled.requests {i : Item} (h : ItemSpelled tokens i) (own : ModulePath) :
    ∀ q ∈ i.requests own, q.SpelledIn own tokens := by
  cases h with
  | function | global => exact List.forall_mem_nil _
  | imports h | submodule h => exact List.forall_mem_singleton.mpr (h own)

/-- What the body of an item asks for is spelled where it stands. -/
theorem ItemSpelled.bodyRequests {i : Item} (h : ItemSpelled tokens i) (own : ModulePath) :
    ∀ q ∈ i.bodyRequests, q.SpelledIn own tokens := by
  cases h with
  | function _ _ hbody => exact hbody.request own
  | global | imports | submodule => exact List.forall_mem_nil _

theorem gives_paramsFrom (hc : c.In tokens) (fuel : Nat) {done : List Param}
    (hdone : ∀ p ∈ done, SpelledAt tokens p.token [p.name]) :
    Gives tokens (fun ps => ∀ p ∈ ps, SpelledAt tokens p.token [p.name])
      (paramsFrom fuel done) c := by
  induction fuel generalizing c done with
  | zero => exact gives_failUnexpected
  | succ fuel ih =>
    rw [paramsFrom]
    refine Gives.get_bind ?_
    split
    · exact (gives_skip hc).bind fun _ _ hc₁ _ =>
        Gives.pure hc₁ fun p hp => hdone p (List.mem_reverse.mp hp)
    · refine (gives_simpleName hc).bind fun (token, name) _ hc₁ hname =>
        (gives_discard (gives_expect hc₁ _)).bind fun _ _ hc₂ _ =>
        (gives_typeName hc₂).bind fun type _ hc₃ _ =>
        (gives_skipTerminators hc₃).bind fun _ _ hc₄ _ => Gives.get_bind ?_
      have hdone' : ∀ p ∈ (⟨token, name, type⟩ : Param) :: done, SpelledAt tokens p.token [p.name] :=
        List.forall_mem_cons.mpr ⟨hname, hdone⟩
      split
      · exact (gives_skip hc₄).bind fun _ _ hc₅ _ =>
          (gives_skipTerminators hc₅).bind fun _ _ hc₆ _ => ih hc₆ hdone'
      · exact ih hc₄ hdone'
      · exact (gives_failExpected (P := fun _ => False) _).bind fun _ _ _ h => h.elim

theorem gives_block (hc : c.In tokens) :
    Gives tokens (fun b => Spelled tokens (Block.mentions b)) block c := by
  have hgives := (readsSpelled tokens c.fuel).block hc (List.forall_mem_nil _)
  unfold Gives at hgives ⊢
  unfold block
  exact hgives

theorem gives_function (hc : c.In tokens) (isPublic : Bool) :
    Gives tokens (fun f => ItemSpelled tokens (.function f)) (function isPublic) c := by
  refine (gives_simpleName hc).bind fun (token, name) _ hc₁ hname =>
    (gives_discard (gives_expect hc₁ _)).bind fun _ _ hc₂ _ =>
    (gives_skipTerminators hc₂).bind fun _ _ hc₃ _ => Gives.get_bind <|
    (gives_paramsFrom hc₃ _ (List.forall_mem_nil _)).bind fun params c₄ hc₄ hparams => ?_
  extract_lets finish typed
  have hfinish : ∀ {returnType c'}, c'.In tokens →
      Gives tokens (fun f => ItemSpelled tokens (.function f)) (finish returnType) c' := by
    refine fun {returnType c'} hc' =>
      (gives_skipTerminators hc').bind fun _ _ hc₅ _ => Gives.get_bind ?_
    extract_lets read
    exact Gives.check (gives_failExpected _) <|
      (gives_skip hc₅).bind fun _ _ hc₆ _ =>
      (gives_block hc₆).bind fun _ _ hc₇ hbody => Gives.pure hc₇ (.function hname hparams hbody)
  refine Gives.check (Gives.throw rfl) (Gives.get_bind ?_)
  split
  · exact (gives_skip hc₄).bind fun _ _ hc₅ _ =>
      (gives_typeName hc₅).bind fun _ _ hc₆ _ => hfinish hc₆
  · exact hfinish hc₄

theorem gives_global (hc : c.In tokens) (isMutable isPublic : Bool) :
    Gives tokens (fun g => ItemSpelled tokens (.global g)) (global isMutable isPublic) c :=
  (gives_simpleName hc).bind fun _ _ hc₁ hname =>
    (gives_discard (gives_expect hc₁ _)).bind fun _ _ hc₂ _ =>
    (gives_typeName hc₂).bind fun _ _ hc₃ _ =>
    (gives_endStatement hc₃).bind fun _ _ hc₄ _ => Gives.pure hc₄ (.global hname)

theorem gives_selectedFrom (hc : c.In tokens) (fuel : Nat) (done : List (Nat × String)) :
    Gives tokens (fun _ => True) (selectedFrom fuel done) c := by
  induction fuel generalizing c done with
  | zero => exact gives_failUnexpected
  | succ fuel ih =>
    rw [selectedFrom]
    refine (gives_skipTerminators hc).bind fun _ _ hc₁ _ =>
      (gives_simpleIdentifier hc₁).bind fun _ _ hc₂ _ =>
      (gives_skipTerminators hc₂).bind fun _ _ hc₃ _ => Gives.get_bind ?_
    split
    · exact (gives_skip hc₃).bind fun _ _ hc₄ _ => ih hc₄ _
    · exact (gives_skip hc₃).bind fun _ _ hc₄ _ => Gives.pure hc₄ trivial
    · exact gives_failExpected _

/-- A cursor that comes from a keyword to a name has moved by one. -/
theorem Cursor.index_next_of_keyword {k : Keyword} {path : List String}
    (h : c.current.shape = .keyword k) (hpath : c.next.current.shape = .identifier path) :
    c.next.index = c.index + 1 :=
  index_next fun heq => by rw [heq, h] at hpath; cases hpath

/-- The path after an `import` is that of the module asked for. -/
theorem gives_imports (hc : c.In tokens) (h : c.current.shape = .keyword .importKw) :
    Gives tokens (fun i => ItemSpelled tokens (.imports i)) imports c := by
  refine Gives.advance_bind (Gives.get_bind ?_)
  by_cases hkind : c.next.kind = .identifier
  · obtain ⟨path, hpath⟩ := Token.exists_shape_of_kind hkind
    have hspelled : ∀ selected, ItemSpelled tokens (.imports ⟨c.index, ⟨path⟩, selected⟩) := by
      refine fun selected => .imports fun own => .imports hc.current h ?_ hpath
      rw [← Cursor.index_next_of_keyword h hpath]
      exact hc.next.current
    rw [if_neg (not_not_intro hkind)]
    refine (gives_skip hc.next).bind fun _ c₂ hc₂ _ => Gives.get_bind ?_
    extract_lets finish
    have hfinish : ∀ {selected c'}, c'.In tokens →
        Gives tokens (fun i => ItemSpelled tokens (.imports i)) (finish selected) c' := by
      intro selected c' hc'
      refine (gives_endStatement hc').bind fun _ _ hc₃ _ => Gives.pure hc₃ ?_
      rw [Token.path, hpath]
      exact hspelled selected
    split
    · exact (gives_skip hc₂).bind fun _ _ hc₃ _ =>
        (gives_discard (gives_expect hc₃ _)).bind fun _ _ hc₄ _ => Gives.get_bind <|
        (gives_selectedFrom hc₄ _ _).bind fun _ _ hc₅ _ => hfinish hc₅
    · exact hfinish hc₂
  · rw [if_pos hkind]
    exact (gives_failExpected (P := fun _ => False) _).bind fun _ _ _ h => h.elim

theorem gives_submodule (hc : c.In tokens) (h : c.current.shape = .keyword .modKw) :
    Gives tokens (fun s => ItemSpelled tokens (.submodule s)) submodule c := by
  refine Gives.advance_bind ((gives_simpleIdentifier hc.next).bind fun _ _ hc₁ hname => ?_)
  obtain ⟨rfl, path, hpath, hsimple⟩ := hname
  refine (gives_endStatement hc₁).bind fun _ _ hc₂ _ => Gives.pure hc₂ ?_
  refine .submodule fun own => .submodule hc.current h ?_ hpath hsimple
  rw [← Cursor.index_next_of_keyword h hpath]
  exact hc.next.current

theorem gives_item (hc : c.In tokens) :
    Gives tokens (ItemSpelled tokens) item c := by
  refine Gives.get_bind ?_
  extract_lets isPublic read
  have hread : ∀ {c'}, c'.In tokens → Gives tokens (ItemSpelled tokens) (read ()) c' := by
    intro c' hc'
    refine Gives.get_bind ?_
    split
    · exact (gives_skip hc').bind fun _ _ hc₁ _ =>
        (gives_function hc₁ isPublic).bind fun f _ hc₂ hf => Gives.pure hc₂ hf
    · exact (gives_skip hc').bind fun _ _ hc₁ _ =>
        (gives_global hc₁ _ isPublic).bind fun g _ hc₂ hg => Gives.pure hc₂ hg
    · exact (gives_skip hc').bind fun _ _ hc₁ _ =>
        (gives_global hc₁ _ isPublic).bind fun g _ hc₂ hg => Gives.pure hc₂ hg
    · next hkind =>
      split
      · exact gives_failExpected _
      · exact (gives_imports hc' (Token.shape_of_kind_keyword hkind)).bind fun i _ hc₁ hi =>
          Gives.pure hc₁ hi
    · next hkind =>
      split
      · exact gives_failExpected _
      · exact (gives_submodule hc' (Token.shape_of_kind_keyword hkind)).bind fun i _ hc₁ hi =>
          Gives.pure hc₁ hi
    · exact gives_failExpected _
  split
  · exact (gives_skip hc).bind fun _ _ hc₁ _ => hread hc₁
  · exact hread hc

theorem gives_itemsFrom (hc : c.In tokens) (fuel : Nat) {done : List Item}
    (hdone : ∀ i ∈ done, ItemSpelled tokens i) :
    Gives tokens (fun is => ∀ i ∈ is, ItemSpelled tokens i) (itemsFrom fuel done) c := by
  induction fuel generalizing c done with
  | zero => exact gives_failUnexpected
  | succ fuel ih =>
    rw [itemsFrom]
    refine (gives_skipTerminators hc).bind fun _ _ hc₁ _ => Gives.get_bind ?_
    split
    · refine (gives_item hc₁).bind fun i _ hc₂ hi => ih hc₂ ?_
      exact List.forall_mem_cons.mpr ⟨hi, hdone⟩
    · exact Gives.pure hc₁ fun i hi => hdone i (List.mem_reverse.mp hi)

theorem gives_items (tokens : List Token) :
    match items tokens with
    | .ok is => ∀ i ∈ is, ItemSpelled tokens i
    | .error fault => fault.cause.category = .grammatical := by
  unfold items
  cases tokens with
  | nil => exact List.forall_mem_nil _
  | cons t rest =>
    have hstart : Cursor.In (t :: rest) ⟨0, t, rest⟩ := rfl
    have hgives := gives_itemsFrom hstart (rest.length + 2)
      (List.forall_mem_nil (ItemSpelled (t :: rest)))
    unfold Gives at hgives
    rw [Cursor.ofTokens?]
    dsimp only [Cursor.remaining]
    cases hread : itemsFrom (rest.length + 2) [] ⟨0, t, rest⟩ with
    | ok is c' =>
      rw [hread] at hgives
      exact hgives.2
    | error fault c' =>
      rw [hread] at hgives
      exact hgives

/-- What a function mentions stands in the text. -/
theorem spelled_of_mem_functionsOf {is : List Item} (h : items tokens = .ok is) {f : Function}
    (hf : f ∈ functionsOf is) : Spelled tokens (Block.mentions f.body) := by
  have hgives := gives_items tokens
  rw [h] at hgives
  obtain ⟨i, hi, hif⟩ := List.mem_filterMap.mp hf
  cases hgives i hi with
  | function _ _ hbody =>
    cases hif
    exact hbody
  | global | imports | submodule => cases hif

theorem category_of_items {fault : Fault} (h : items tokens = .error fault) :
    fault.cause.category = .grammatical := by
  have hgives := gives_items tokens
  rwa [h] at hgives

theorem spelledIn_of_mem_requests {is : List Item} (h : items tokens = .ok is) {own : ModulePath}
    {q : Request} (hq : q ∈ requests own is) : q.SpelledIn own tokens := by
  have hgives := gives_items tokens
  rw [h] at hgives
  rcases List.mem_append.mp hq with hq | hq
  · obtain ⟨i, hi, hq⟩ := List.mem_flatMap.mp hq
    exact (hgives i hi).requests own q hq
  · obtain ⟨i, hi, hq⟩ := List.mem_flatMap.mp hq
    exact (hgives i hi).bodyRequests own q hq

end Grammar

end FrontEnd
