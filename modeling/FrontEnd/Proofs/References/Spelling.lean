import FrontEnd.Proofs.References.Basic

/-!
# Mentions stand in the text

Every name that a tree mentions stands at its token, and a declaration has a value exactly
if one is read behind its colon. A file that cannot be read is always at fault with its
grammar.
-/

namespace FrontEnd

theorem Token.exists_shape_of_kind {t : Token} (h : t.kind = .identifier) :
    ∃ path, t.shape = .identifier path := by
  cases hshape : t.shape <;> simp [Token.kind, hshape, Token.Shape.kind] at h ⊢
  split at h <;> cases h

/-- A token is a name. One without dots is the text of the token as well. -/
inductive Token.Spells (t : Token) : List String → Prop
  | path {path : List String} (h : t.shape = .identifier path) : Spells t path
  | simple {path : List String} (h : t.shape = .identifier path) (hsimple : path.length = 1) :
    Spells t [t.text]

namespace Grammar

open Token (Kind Mark Keyword)

/-- A cursor stands in a list of tokens where its index says. -/
def Cursor.In (tokens : List Token) (c : Cursor) : Prop :=
  tokens.drop c.index = c.current :: c.rest

/-- A name stands at a token. -/
def SpelledAt (tokens : List Token) (token : Nat) (path : List String) : Prop :=
  ∃ t, tokens[token]? = some t ∧ t.Spells path

/-- Whether the tokens behind the colon of a declaration start its value: `=` comes first, or a type
and then `=`. -/
def startsValue (tokens : List Token) : Bool :=
  match tokens.map Token.kind with
  | .mark .assign :: _ | .identifier :: .mark .assign :: _ => true
  | _ => false

/-- A declaration has a value exactly if one is read behind its name and the colon. -/
def ValueSpelled (tokens : List Token) : Mention → Prop
  | .declare token _ hasValue => hasValue = startsValue (tokens.drop (token + 2))
  | _ => True

/-- Names stand at their tokens, and those that are declared have the values that stand there. -/
def Spelled (tokens : List Token) (ms : List Mention) : Prop :=
  ∀ m ∈ ms, SpelledAt tokens m.token m.path ∧ ValueSpelled tokens m

/-- At a cursor a reader gives a result of which `P` holds, or finds fault with the grammar. -/
def Gives {α : Type} (tokens : List Token) (P : α → Prop) (x : Parse α) (c : Cursor) : Prop :=
  match x c with
  | .ok a c' => c'.In tokens ∧ P a
  | .error fault _ => fault.cause.category = .grammatical

variable {α β : Type} {tokens : List Token} {c : Cursor} {ms ms' : List Mention}

namespace Cursor.In

theorem current (h : c.In tokens) : tokens[c.index]? = some c.current := by
  rw [← List.head?_drop, h, List.head?_cons]

theorem next (h : c.In tokens) : c.next.In tokens := by
  obtain ⟨index, t, _ | ⟨u, rest⟩⟩ := c
  · exact h
  · change tokens.drop (index + 1) = u :: rest
    rw [← List.tail_drop, h, List.tail_cons]

theorem pastTerminators {index : Nat} {t : Token} {rest : List Token}
    (h : tokens.drop index = t :: rest) : (pastTerminators index t rest).In tokens := by
  induction rest generalizing index t with
  | nil => exact h
  | cons u rest ih =>
    rw [Cursor.pastTerminators]
    split
    · refine ih ?_
      rw [← List.tail_drop, h, List.tail_cons]
    · exact h

theorem skipTerminators (h : c.In tokens) : c.skipTerminators.In tokens := pastTerminators h

end Cursor.In

namespace Spelled

theorem nil : Spelled tokens [] := List.forall_mem_nil _

theorem append (h : Spelled tokens ms) (h' : Spelled tokens ms') :
    Spelled tokens (ms ++ ms') :=
  List.forall_mem_append.mpr ⟨h, h'⟩

theorem expr {e : Expr} (h : ∀ n ∈ e, Spelled tokens n.mentions) :
    Spelled tokens (Expr.mentions e) := by
  intro d hd
  obtain ⟨n, hn, hd⟩ := Expr.mem_mentions.mp hd
  exact h n hn d hd

theorem block {b : Block} (h : ∀ s ∈ b, Spelled tokens s.mentions) :
    Spelled tokens (Block.mentions b) := by
  intro d hd
  obtain ⟨s, hs, hd⟩ := Block.mem_mentions.mp hd
  exact h s hs d hd

theorem singleton {m : Mention} (h : SpelledAt tokens m.token m.path)
    (hvalue : ValueSpelled tokens m) : Spelled tokens [m] :=
  List.forall_mem_singleton.mpr ⟨h, hvalue⟩

end Spelled

/-- A cursor that comes to another token has moved by one. -/
theorem Cursor.index_next (h : c.next.current ≠ c.current) : c.next.index = c.index + 1 := by
  obtain ⟨index, t, _ | ⟨u, rest⟩⟩ := c
  · exact absurd rfl h
  · rfl

theorem startsValue_of_assign (h : c.kind = .mark .assign) :
    startsValue (c.current :: c.rest) = true := by
  have hkinds : (c.current :: c.rest).map Token.kind = .mark .assign :: c.rest.map Token.kind :=
    congrArg (· :: _) h
  rw [startsValue, hkinds]

theorem startsValue_of_type (h : c.kind = .identifier) :
    startsValue (c.current :: c.rest) = true ↔ c.next.kind = .mark .assign := by
  obtain ⟨index, t, _ | ⟨u, rest⟩⟩ := c
  · have hkinds : [t].map Token.kind = [.identifier] := congrArg (· :: _) h
    have hne : Cursor.kind ⟨index, t, []⟩ ≠ .mark .assign := by
      rw [h]
      decide
    exact iff_of_false (by rw [startsValue, hkinds]; decide) hne
  · have hkinds : (t :: u :: rest).map Token.kind =
        .identifier :: u.kind :: rest.map Token.kind := congrArg (· :: _) h
    rw [startsValue, hkinds]
    change _ ↔ u.kind = .mark .assign
    split <;> simp_all

theorem startsValue_of_end (hassign : c.kind ≠ .mark .assign) (htype : c.kind ≠ .identifier) :
    startsValue (c.current :: c.rest) = false := by
  have hkinds : (c.current :: c.rest).map Token.kind = c.kind :: c.rest.map Token.kind := rfl
  rw [startsValue, hkinds]
  split <;> simp_all

/-- The token that a cursor stands on spells its own name. -/
theorem SpelledAt.current {path : List String} (hc : c.In tokens)
    (h : c.current.shape = .identifier path) : SpelledAt tokens c.index path :=
  ⟨c.current, hc.current, .path h⟩

namespace Gives

variable {P : α → Prop} {Q : β → Prop}

theorem pure {a : α} (hc : c.In tokens) (h : P a) : Gives tokens P (Pure.pure a) c := ⟨hc, h⟩

theorem throw {fault : Fault} (h : fault.cause.category = .grammatical) :
    Gives tokens P (MonadExcept.throw fault) c := h

theorem bind {x : Parse α} {f : α → Parse β} (h : Gives tokens P x c)
    (hf : ∀ a c', c'.In tokens → P a → Gives tokens Q (f a) c') : Gives tokens Q (x >>= f) c := by
  unfold Gives at h
  change match EStateM.bind x f c with
    | .ok a c' => c'.In tokens ∧ Q a
    | .error fault _ => fault.cause.category = .grammatical
  unfold EStateM.bind
  cases hx : x c with
  | ok a c' =>
    rw [hx] at h
    exact hf a c' h.1 h.2
  | error fault c' =>
    rw [hx] at h
    exact h

/-- What is read after the cursor has been looked at depends on where it stands. -/
theorem get_bind {f : Cursor → Parse β} (h : Gives tokens Q (f c) c) :
    Gives tokens Q (get >>= f) c := h

/-- What is read after the cursor has been moved starts where it was moved to. -/
theorem set_bind {c' : Cursor} {f : PUnit → Parse β} (h : Gives tokens Q (f ⟨⟩) c') :
    Gives tokens Q (set c' >>= f) c := h

/-- A check that may fail stands before what is read next. -/
theorem check {b : Prop} [Decidable b] {x : Parse Unit} {f : Unit → Parse β}
    (hx : Gives tokens (fun _ => False) x c) (hf : Gives tokens Q (f ()) c) :
    Gives tokens Q (if b then x >>= f else f ()) c := by
  split
  · exact hx.bind fun _ _ _ h => h.elim
  · exact hf

theorem weaken {P' : α → Prop} {x : Parse α} (h : Gives tokens P x c) (hP : ∀ a, P a → P' a) :
    Gives tokens P' x c := by
  unfold Gives at h ⊢
  cases hx : x c with
  | ok a c' =>
    rw [hx] at h
    exact ⟨h.1, hP a h.2⟩
  | error fault c' =>
    rw [hx] at h
    exact h

end Gives

theorem gives_advance (hc : c.In tokens) : Gives tokens (· = c.index) advance c := ⟨hc.next, rfl⟩

/-- What is read after a token starts at the next one. -/
theorem Gives.advance_bind {Q : β → Prop} {f : Nat → Parse β}
    (h : Gives tokens Q (f c.index) c.next) : Gives tokens Q (advance >>= f) c := h

theorem gives_discard {P : α → Prop} {x : Parse α} (h : Gives tokens P x c) :
    Gives tokens (fun _ => True) (discard x) c := by
  refine (h.bind (Q := fun _ => True) fun a c' hc' _ => Gives.pure hc' trivial).weaken fun _ _ => trivial

theorem gives_skip (hc : c.In tokens) : Gives tokens (fun _ => True) (discard advance) c :=
  gives_discard (gives_advance hc)

theorem gives_skipTerminators (hc : c.In tokens) :
    Gives tokens (fun _ => True) skipTerminators c := ⟨hc.skipTerminators, trivial⟩

theorem category_unexpected (c : Cursor) : c.unexpected.cause.category = .grammatical := by
  unfold Cursor.unexpected Cursor.fault
  split <;> rfl

theorem category_unexpectedDetailed (c : Cursor) (detail : String) :
    (c.unexpectedDetailed detail).cause.category = .grammatical := by
  unfold Cursor.unexpectedDetailed Cursor.fault
  split <;> rfl

theorem category_complaint (e : Complaint) (c : Cursor) :
    (e.fault c).cause.category = .grammatical := by
  cases e with
  | mismatched => rfl
  | unexpected => exact category_unexpected c
  | missingOperand | missingOperator => exact category_unexpectedDetailed c _

theorem gives_failUnexpected {P : α → Prop} : Gives tokens P failUnexpected c :=
  Gives.get_bind (Gives.throw (category_unexpected c))

theorem gives_failExpected {P : α → Prop} (detail : String) :
    Gives tokens P (failExpected detail) c :=
  Gives.get_bind (Gives.throw (category_unexpectedDetailed c detail))

theorem gives_expect (hc : c.In tokens) (kind : Kind) :
    Gives tokens (fun _ => True) (expect kind) c := by
  refine Gives.get_bind ?_
  split
  · exact (gives_advance hc).weaken fun _ _ => trivial
  · exact Gives.throw (category_unexpected c)

/-- A name without dots is the text of the current token. -/
theorem gives_simpleIdentifier (hc : c.In tokens) :
    Gives tokens (fun r => r = (c.index, c.current.text) ∧
      ∃ path, c.current.shape = .identifier path ∧ path.length = 1) simpleIdentifier c := by
  refine Gives.get_bind ?_
  split
  · next path hshape =>
    split
    · next hlen =>
      exact (gives_advance hc).bind fun _ _ hc' ha => Gives.pure hc' ⟨by rw [ha], path, hshape, hlen⟩
    · exact Gives.throw rfl
  · exact gives_failExpected _

/-- What is read after a name without dots starts at the next token. -/
theorem Gives.simpleName_bind {Q : β → Prop} {f : Nat × String → Parse β} (hc : c.In tokens)
    (h : ∀ name, SpelledAt tokens c.index [name] → Gives tokens Q (f (c.index, name)) c.next) :
    Gives tokens Q (simpleIdentifier >>= f) c := by
  unfold simpleIdentifier
  rw [bind_assoc]
  refine Gives.get_bind ?_
  split
  · next path hshape =>
    split
    · next hsimple => exact h _ ⟨c.current, hc.current, .simple hshape hsimple⟩
    · exact Gives.throw rfl
  · exact (gives_failExpected (P := fun _ => False) _).bind fun _ _ _ h => h.elim

/-- What is read after a token of a given kind starts at the next one. -/
theorem Gives.expect_bind {Q : β → Prop} {f : Unit → Parse β} {kind : Kind}
    (h : c.kind = kind → Gives tokens Q (f ()) c.next) :
    Gives tokens Q (discard (expect kind) >>= f) c := by
  change Gives tokens Q
    (discard (if c.kind = kind then advance else MonadExcept.throw c.unexpected) >>= f) c
  split
  · next hkind => exact h hkind
  · exact Gives.throw (category_unexpected c)

/-- A name without dots stands at its token. -/
theorem gives_simpleName (hc : c.In tokens) :
    Gives tokens (fun r => SpelledAt tokens r.1 [r.2]) simpleIdentifier c := by
  refine (gives_simpleIdentifier hc).weaken fun r hr => ?_
  obtain ⟨rfl, path, hshape, hsimple⟩ := hr
  exact ⟨c.current, hc.current, .simple hshape hsimple⟩

theorem gives_endStatement (hc : c.In tokens) : Gives tokens (fun _ => True) endStatement c := by
  refine Gives.get_bind ?_
  split
  · exact gives_skip hc
  · exact Gives.pure hc trivial
  · exact Gives.pure hc trivial
  · exact Gives.throw (category_unexpected c)

theorem gives_typeName (hc : c.In tokens) : Gives tokens (fun _ => True) typeName c := by
  refine Gives.get_bind ?_
  extract_lets found
  refine Gives.check (gives_failExpected _) ?_
  unfold found
  split
  · exact (gives_skip hc).bind fun _ _ hc' _ => Gives.pure hc' trivial
  · exact Gives.throw rfl

/-- What is read after the name of a type starts at the next token. -/
theorem Gives.typeName_bind {Q : β → Prop} {f : ValueType → Parse β}
    (h : ∀ type, Gives tokens Q (f type) c.next) : Gives tokens Q (typeName >>= f) c := by
  unfold typeName
  rw [bind_assoc]
  refine Gives.get_bind ?_
  dsimp only
  split
  · exact (gives_failExpected (P := fun _ => False) _).bind fun _ _ _ h => h.elim
  · split
    · exact h _
    · exact Gives.throw rfl

theorem gives_exitAmount (hc : c.In tokens) : Gives tokens (fun _ => True) exitAmount c := by
  refine Gives.get_bind ?_
  split
  · exact Gives.pure hc trivial
  · refine (gives_skip hc).bind fun _ c₁ hc₁ _ => Gives.get_bind ?_
    split
    · exact (gives_skip hc₁).bind fun _ _ hc₂ _ => Gives.pure hc₂ trivial
    · exact gives_failExpected _

/-- What waits for its operands was read from tokens that spell it. -/
def Pending.Spelled (tokens : List Token) : Pending → Prop
  | .call token path _ _ => SpelledAt tokens token path
  | _ => True

/-- All that has been read of an expression stands at its tokens. -/
structure Progress.Spelled (tokens : List Token) (p : Progress) : Prop where
  output : ∀ n ∈ p.output, Grammar.Spelled tokens n.mentions
  pending : ∀ q ∈ p.pending, q.Spelled tokens

namespace Progress.Spelled

variable {p p' : Progress} {output : List Node} {pending : List Pending}

theorem start : Progress.start.Spelled tokens := ⟨List.forall_mem_nil _, List.forall_mem_nil _⟩

theorem op {token : Nat} {o : Operator} (h : ∀ n ∈ output, Grammar.Spelled tokens n.mentions) :
    ∀ n ∈ .op token o :: output, Grammar.Spelled tokens n.mentions :=
  List.forall_mem_cons.mpr ⟨by rw [Node.mentions]; exact .nil, h⟩

theorem flushGroup (ho : ∀ n ∈ output, Grammar.Spelled tokens n.mentions)
    (hp : ∀ q ∈ pending, q.Spelled tokens) :
    (∀ n ∈ (flushGroup output pending).1, Grammar.Spelled tokens n.mentions) ∧
      ∀ q ∈ (Progress.flushGroup output pending).2, q.Spelled tokens := by
  fun_induction Progress.flushGroup output pending with
  | case1 output operator token rest ih => exact ih (op ho) (List.forall_mem_cons.mp hp).2
  | case2 output pending => exact ⟨ho, hp⟩

theorem flushFor {incoming : Operator} (ho : ∀ n ∈ output, Grammar.Spelled tokens n.mentions)
    (hp : ∀ q ∈ pending, q.Spelled tokens) :
    (∀ n ∈ (Progress.flushFor incoming output pending).1, Grammar.Spelled tokens n.mentions) ∧
      ∀ q ∈ (Progress.flushFor incoming output pending).2, q.Spelled tokens := by
  fun_induction Progress.flushFor incoming output pending with
  | case1 output operator token rest hflush ih => exact ih (op ho) (List.forall_mem_cons.mp hp).2
  | case2 | case3 => exact ⟨ho, hp⟩

theorem finish {e : Expr} (ho : ∀ n ∈ output, Grammar.Spelled tokens n.mentions)
    (h : Progress.finish output pending = .ok e) :
    Grammar.Spelled tokens (Expr.mentions e) := by
  fun_induction Progress.finish output pending with
  | case1 output =>
    cases h
    exact Grammar.Spelled.expr fun n hn => ho n (List.mem_reverse.mp hn)
  | case2 output operator token rest ih => exact ih (op ho) h
  | case3 | case4 => cases h

theorem operand {n : Node} (hp : p.Spelled tokens) (hn : Grammar.Spelled tokens n.mentions)
    (h : p.operand n = .ok p') : p'.Spelled tokens := by
  unfold Progress.operand at h
  split at h
  · cases h
    exact ⟨List.forall_mem_cons.mpr ⟨hn, hp.output⟩, hp.pending⟩
  · cases h

theorem opening {q : Pending} {justOpened : Bool} (hp : p.Spelled tokens) (hq : q.Spelled tokens)
    (h : p.opening q justOpened = .ok p') : p'.Spelled tokens := by
  unfold Progress.opening at h
  split at h
  · cases h
    exact ⟨hp.output, List.forall_mem_cons.mpr ⟨hq, hp.pending⟩⟩
  · cases h

theorem operator {token : Nat} {o : Operator} (hp : p.Spelled tokens)
    (h : p.operator token o = .ok p') : p'.Spelled tokens := by
  unfold Progress.operator at h
  dsimp only at h
  split at h
  · cases h
  · cases h
    obtain ⟨ho, hpending⟩ := flushFor hp.output hp.pending
    exact ⟨ho, List.forall_mem_cons.mpr ⟨trivial, hpending⟩⟩

theorem comma (hp : p.Spelled tokens) (h : p.comma = .ok p') : p'.Spelled tokens := by
  unfold Progress.comma at h
  split at h
  · cases h
  · obtain ⟨ho, hpending⟩ := flushGroup hp.output hp.pending
    split at h
    · next hflush =>
      cases h
      rw [hflush] at ho hpending
      rw [List.forall_mem_cons] at hpending
      exact ⟨ho, List.forall_mem_cons.mpr hpending⟩
    · cases h

theorem close (hp : p.Spelled tokens) (h : p.close = .ok p') : p'.Spelled tokens := by
  unfold Progress.close at h
  split at h
  · cases h
  · obtain ⟨ho, hpending⟩ := flushGroup hp.output hp.pending
    split at h
    · next hflush =>
      cases h
      rw [hflush] at ho hpending
      exact ⟨ho, (List.forall_mem_cons.mp hpending).2⟩
    · next hflush =>
      cases h
      rw [hflush] at ho hpending
      rw [List.forall_mem_cons] at hpending
      refine ⟨List.forall_mem_cons.mpr ⟨?_, ho⟩, hpending.2⟩
      rw [Node.mentions]
      exact .singleton hpending.1 trivial
    · cases h

theorem feed {index : Nat} {shape : Token.Shape} (hp : p.Spelled tokens)
    (hname : ∀ path, shape = .identifier path → SpelledAt tokens index path)
    (h : p.feed index shape = .ok p') : p'.Spelled tokens := by
  unfold Progress.feed at h
  split at h
  · next n =>
    refine hp.operand ?_ h
    unfold literal
    split <;> rw [Node.mentions] <;> exact .nil
  · next path =>
    refine hp.operand ?_ h
    rw [Node.mentions]
    exact .singleton (hname path rfl) trivial
  · exact hp.operand (by rw [Node.mentions]; exact .nil) h
  · exact hp.operand (by rw [Node.mentions]; exact .nil) h
  · exact hp.opening (q := .group index) trivial h
  · exact hp.comma h
  · exact hp.close h
  · split at h
    · exact hp.operator h
    · cases h
  · cases h

end Progress.Spelled

theorem gives_orComplain {P : α → Prop} {r : Except Complaint α} (hc : c.In tokens)
    (h : ∀ a, r = .ok a → P a) : Gives tokens P (orComplain r) c := by
  cases r with
  | ok a => exact Gives.pure hc (h a rfl)
  | error e => exact Gives.get_bind (Gives.throw (category_complaint e c))

theorem gives_endExpression {p : Progress} (hc : c.In tokens) (hp : p.Spelled tokens)
    (stop : Option Kind) :
    Gives tokens (fun e => Spelled tokens (Expr.mentions e)) (endExpression stop p) c := by
  refine Gives.get_bind ?_
  extract_lets closed
  refine Gives.check (gives_failExpected _) ?_
  unfold closed
  split
  · exact Gives.throw rfl
  · next e hfinish =>
    have he := Progress.Spelled.finish hp.output hfinish
    extract_lets done checked
    have hchecked : Gives tokens (fun e => Spelled tokens (Expr.mentions e)) (checked ()) c := by
      unfold checked
      split
      · exact (gives_skip hc).bind fun _ _ hc' _ => Gives.pure hc' he
      · exact Gives.pure hc he
    split
    · exact Gives.check (gives_failExpected _) hchecked
    · exact hchecked

theorem gives_nonEmpty {P : Expr → Prop} {x : Parse Expr} (h : Gives tokens P x c) :
    Gives tokens (fun e => P e ∧ e.isEmpty = false) (nonEmpty x) c := by
  refine Gives.get_bind (h.bind fun e c' hc' he => ?_)
  dsimp only
  split
  · exact (Gives.throw (P := fun _ => False) (category_unexpectedDetailed c _)).bind
      fun _ _ _ h => h.elim
  · next hne => exact Gives.pure hc' ⟨he, Bool.eq_false_iff.mpr hne⟩

/-- What all readers give with a certain amount of fuel. -/
structure ReadsSpelled (tokens : List Token) (fuel : Nat) : Prop where
  expression : ∀ {stop p c}, c.In tokens → p.Spelled tokens →
    Gives tokens (fun e => Spelled tokens (Expr.mentions e)) (expressionFrom fuel stop p) c
  conditional : ∀ {token c}, c.In tokens →
    Gives tokens (fun b => Spelled tokens b.mentions) (conditionalFrom fuel token) c
  block : ∀ {done c}, c.In tokens → (∀ s ∈ done, Spelled tokens s.mentions) →
    Gives tokens (fun b => Spelled tokens (Block.mentions b)) (blockFrom fuel done) c
  statement : ∀ {c}, c.In tokens →
    Gives tokens (fun s => Spelled tokens s.mentions) (statementFrom fuel) c

variable {fuel : Nat}

theorem ReadsSpelled.expressionFrom_succ (h : ReadsSpelled tokens fuel) {stop : Option Kind}
    {p : Progress} (hc : c.In tokens) (hp : p.Spelled tokens) :
    Gives tokens (fun e => Spelled tokens (Expr.mentions e))
      (expressionFrom (fuel + 1) stop p) c := by
  rw [expressionFrom]
  refine Gives.get_bind ?_
  split
  · exact (gives_skip hc).bind fun _ _ hc' _ => h.expression hc' hp
  · split
    · exact gives_endExpression hc hp stop
    · split
      · -- A conditional is an operand.
        extract_lets go
        refine Gives.check (Gives.throw (category_complaint _ c)) ?_
        refine (gives_skip hc).bind fun _ _ hc₁ _ =>
          (h.conditional hc₁).bind fun branch _ hc₂ hbranch =>
            (gives_orComplain hc₂ fun q hq => ?_).bind fun q _ hc₃ hq => h.expression hc₃ hq
        exact hp.operand (by rwa [Node.mentions]) hq
      · next path hshape =>
        -- The name of a call waits for its arguments with the parenthesis.
        have hname := SpelledAt.current hc hshape
        split
        · refine (gives_orComplain hc fun q hq =>
            hp.opening (q := .call c.index path (c.index + 1) 0) hname hq).bind fun q _ hc₁ hq =>
            (gives_skip hc₁).bind fun _ _ hc₂ _ =>
              (gives_skip hc₂).bind fun _ _ hc₃ _ => h.expression hc₃ hq
        · refine (gives_orComplain hc fun q hq => hp.feed ?_ hq).bind fun q _ hc₁ hq =>
            (gives_skip hc₁).bind fun _ _ hc₂ _ => h.expression hc₂ hq
          rintro _ ⟨⟩
          exact hname
      · next hshape =>
        refine (gives_orComplain hc fun q hq => hp.feed ?_ hq).bind fun q _ hc₁ hq =>
          (gives_skip hc₁).bind fun _ _ hc₂ _ => h.expression hc₂ hq
        exact fun path hpath => absurd hpath (hshape path)

theorem ReadsSpelled.conditionalFrom_succ (h : ReadsSpelled tokens fuel) {token : Nat}
    (hc : c.In tokens) :
    Gives tokens (fun b => Spelled tokens b.mentions) (conditionalFrom (fuel + 1) token) c := by
  rw [conditionalFrom]
  refine (gives_nonEmpty (h.expression hc .start)).bind fun condition c₁ hc₁ hcondition =>
    (h.block hc₁ (List.forall_mem_nil _)).bind fun onTrue c₂ hc₂ honTrue => Gives.get_bind ?_
  extract_lets start
  have hstart : start.In tokens := hc₂.skipTerminators
  have hbranches : ∀ {onFalse}, Spelled tokens (Block.mentions onFalse) →
      Spelled tokens (Conditional.ofBlocks token condition onTrue onFalse).mentions := by
    intro onFalse honFalse
    rw [Conditional.ofBlocks, Conditional.mentions]
    exact (hcondition.1.append honTrue).append honFalse
  split
  · exact Gives.pure hc₂ (hbranches .nil)
  · refine Gives.set_bind (Gives.get_bind ?_)
    split
    · refine (gives_advance hstart.next).bind fun _ _ hc₃ _ =>
        (h.conditional hc₃).bind fun branch _ hc₄ hbranch => Gives.pure hc₄ (hbranches ?_)
      rw [Block.mentions_cons, Statement.mentions]
      exact hbranch.append .nil
    · exact (gives_skip hstart.next).bind fun _ _ hc₃ _ =>
        (h.block hc₃ (List.forall_mem_nil _)).bind fun _ _ hc₄ honFalse =>
          Gives.pure hc₄ (hbranches honFalse)
    · exact gives_failExpected _

theorem ReadsSpelled.blockFrom_succ (h : ReadsSpelled tokens fuel) {done : List Statement}
    (hc : c.In tokens) (hdone : ∀ s ∈ done, Spelled tokens s.mentions) :
    Gives tokens (fun b => Spelled tokens (Block.mentions b)) (blockFrom (fuel + 1) done) c := by
  rw [blockFrom]
  refine (gives_skipTerminators hc).bind fun _ c₁ hc₁ _ => Gives.get_bind ?_
  split
  · refine (gives_skip hc₁).bind fun _ _ hc₂ _ => Gives.pure hc₂ ?_
    exact Spelled.block fun s hs => hdone s (List.mem_reverse.mp hs)
  · exact gives_failUnexpected
  · refine (h.statement hc₁).bind fun s _ hc₂ hs => h.block hc₂ ?_
    exact List.forall_mem_cons.mpr ⟨hs, hdone⟩

theorem ReadsSpelled.value (h : ReadsSpelled tokens fuel) (stop : Option Kind)
    (hc : c.In tokens) :
    Gives tokens (fun e => Spelled tokens (Expr.mentions e))
      (nonEmpty (expressionFrom fuel stop .start)) c :=
  (gives_nonEmpty (h.expression hc .start)).weaken fun _ he => he.1

theorem spelled_declare {token : Nat} {name : String} {type : Option ValueType} {value : Expr}
    (hname : SpelledAt tokens token [name]) (h : Spelled tokens (Expr.mentions value))
    (hvalue : (!value.isEmpty) = startsValue (tokens.drop (token + 2))) :
    Spelled tokens (Statement.declare token name type value none).mentions := by
  rw [Statement.mentions]
  exact h.append (.singleton hname hvalue)

/-- An assignment evaluates its value before its target. -/
theorem spelled_assign {path : List String} {value : Expr} (hc : c.In tokens)
    (hshape : c.current.shape = .identifier path) (hvalue : Spelled tokens (Expr.mentions value)) :
    Spelled tokens (Statement.assign c.index ⟨c.index, path, none⟩ value).mentions := by
  rw [Statement.mentions]
  exact hvalue.append (.singleton (.current hc hshape) trivial)

/-- A statement that is an expression. -/
theorem ReadsSpelled.eval (h : ReadsSpelled tokens fuel) (hc : c.In tokens) (token : Nat) :
    Gives tokens (fun s : Statement => Spelled tokens s.mentions) (do
      let value ← nonEmpty (expressionFrom fuel none .start)
      return .eval token value) c :=
  (h.value none hc).bind fun _ _ hc' hvalue => Gives.pure hc' (by rwa [Statement.mentions])

theorem ReadsSpelled.statementFrom_declare (h : ReadsSpelled tokens fuel) (hc : c.In tokens)
    (hkind : c.kind = .identifier) (hnext : c.nextKind = .mark .colon) :
    Gives tokens (fun s => Spelled tokens s.mentions) (statementFrom (fuel + 1)) c := by
  rw [statementFrom]
  refine Gives.get_bind ?_
  simp only [hkind, hnext]
  refine Gives.simpleName_bind hc fun name hname => Gives.expect_bind fun hcolon =>
    Gives.get_bind ?_
  have hc₂ := hc.next.next
  -- The name and the colon are two tokens, and what decides comes behind them.
  have hbehind : c.next.next.kind ≠ .mark .colon →
      tokens.drop (c.index + 2) = c.next.next.current :: c.next.next.rest := by
    intro hkind₂
    have hindex : c.next.next.index = c.index + 2 := by
      rw [Cursor.index_next fun heq => ?_, Cursor.index_next fun heq => ?_]
      · rw [Cursor.kind, heq] at hcolon
        exact absurd (hkind.symm.trans hcolon) (by decide)
      · exact hkind₂ ((congrArg Token.kind heq).trans hcolon)
    rw [← hindex]
    exact hc₂
  have hbare : c.next.next.kind ≠ .mark .assign → c.next.next.kind ≠ .identifier →
      c.next.next.kind ≠ .mark .colon →
      Gives tokens (fun s : Statement => Spelled tokens s.mentions) (do
        endStatement
        return .declare c.index name none [] none) c.next.next := by
    intro hassign htype hkind₂
    refine (gives_endStatement hc₂).bind fun _ _ hc₃ _ =>
      Gives.pure hc₃ (spelled_declare hname .nil ?_)
    rw [hbehind hkind₂, startsValue_of_end hassign htype]
    rfl
  split
  · next hassign =>
    refine (gives_skip hc₂).bind fun _ _ hc₃ _ =>
      (gives_nonEmpty (h.expression hc₃ .start)).bind fun _ _ hc₄ hvalue =>
        Gives.pure hc₄ (spelled_declare hname hvalue.1 ?_)
    rw [hbehind (by rw [hassign]; decide), startsValue_of_assign hassign, hvalue.2]
    rfl
  · next htype =>
    -- A type comes first; a value may follow it.
    have hstarts := startsValue_of_type htype
    rw [← hbehind (by rw [htype]; decide)] at hstarts
    refine Gives.typeName_bind fun type => Gives.get_bind ?_
    split
    · next hassign =>
      refine (gives_skip hc₂.next).bind fun _ _ hc₄ _ =>
        (gives_nonEmpty (h.expression hc₄ .start)).bind fun _ _ hc₅ hvalue =>
          Gives.pure hc₅ (spelled_declare hname hvalue.1 ?_)
      rw [hstarts.mpr hassign, hvalue.2]
      rfl
    · next hassign =>
      refine (gives_endStatement hc₂.next).bind fun _ _ hc₄ _ =>
        Gives.pure hc₄ (spelled_declare hname .nil ?_)
      exact (Bool.eq_false_iff.mpr fun h => hassign (hstarts.mp h)).symm
  · next hend => exact hbare (by rw [hend]; decide) (by rw [hend]; decide) (by rw [hend]; decide)
  · next hend => exact hbare (by rw [hend]; decide) (by rw [hend]; decide) (by rw [hend]; decide)
  · next hend => exact hbare (by rw [hend]; decide) (by rw [hend]; decide) (by rw [hend]; decide)
  · exact gives_failExpected _

/-- A statement that starts with a name: what follows it decides. -/
theorem ReadsSpelled.statementFrom_name (h : ReadsSpelled tokens fuel) (hc : c.In tokens)
    (hkind : c.kind = .identifier) :
    Gives tokens (fun s => Spelled tokens s.mentions) (statementFrom (fuel + 1)) c := by
  by_cases hnext : c.nextKind = .mark .colon
  · exact h.statementFrom_declare hc hkind hnext
  obtain ⟨path, hshape⟩ := Token.exists_shape_of_kind hkind
  have hpath : c.current.path = path := by rw [Token.path, hshape]
  rw [statementFrom]
  refine Gives.get_bind ?_
  simp only [hkind, hpath]
  split
  · next hcolon => exact absurd hcolon hnext
  · exact (gives_skip hc).bind fun _ _ hc₁ _ =>
      (gives_skip hc₁).bind fun _ _ hc₂ _ =>
        (h.value none hc₂).bind fun _ _ hc₃ hvalue =>
          Gives.pure hc₃ (spelled_assign hc hshape hvalue)
  · split
    · -- A compound assignment reads its target as well.
      refine (gives_skip hc).bind fun _ _ hc₁ _ =>
        (gives_advance hc₁).bind fun mark _ hc₂ _ =>
          (h.value none hc₂).bind fun value _ hc₃ hvalue =>
            Gives.pure hc₃ (spelled_assign hc hshape ?_)
      simp only [Expr.mentions_cons, List.cons_append, Expr.mentions_append,
        Expr.mentions_nil, Node.mentions, List.append_nil]
      have htarget : Spelled tokens [.read c.index path] := .singleton (.current hc hshape) trivial
      exact htarget.append hvalue
    · exact h.eval hc _

theorem ReadsSpelled.statementFrom_succ (h : ReadsSpelled tokens fuel) (hc : c.In tokens) :
    Gives tokens (fun s => Spelled tokens s.mentions) (statementFrom (fuel + 1)) c := by
  by_cases hkind : c.kind = .identifier
  · exact h.statementFrom_name hc hkind
  rw [statementFrom]
  refine Gives.get_bind ?_
  extract_lets token
  split
  · next hname => exact absurd hname hkind
  · exact (gives_skip hc).bind fun _ _ hc₁ _ =>
      (h.expression hc₁ .start).bind fun _ _ hc₂ hvalue =>
        Gives.pure hc₂ (by rwa [Statement.mentions])
  · -- A conditional alone is a statement of its own, not an expression.
    refine (h.value none hc).bind fun value _ hc₁ hvalue => ?_
    split
    · refine Gives.pure hc₁ ?_
      rw [Expr.mentions_cons, Expr.mentions_nil, List.append_nil, Node.mentions] at hvalue
      rwa [Statement.mentions]
    · exact Gives.pure hc₁ (by rwa [Statement.mentions])
  · refine (gives_skip hc).bind fun _ c₁ hc₁ _ => Gives.get_bind ?_
    split
    · refine (gives_skip hc₁).bind fun _ _ hc₂ _ =>
        (h.block hc₂ (List.forall_mem_nil _)).bind fun body _ hc₃ hbody => Gives.pure hc₃ ?_
      rw [Statement.mentions, Expr.mentions_cons, Expr.mentions_nil, Node.mentions]
      exact hbody
    · refine (h.value _ hc₁).bind fun condition _ hc₂ hcondition =>
        (h.block hc₂ (List.forall_mem_nil _)).bind fun body _ hc₃ hbody => Gives.pure hc₃ ?_
      rw [Statement.mentions]
      exact hcondition.append hbody
  · exact (gives_skip hc).bind fun _ _ hc₁ _ =>
      (gives_exitAmount hc₁).bind fun _ _ hc₂ _ => (gives_endStatement hc₂).bind fun _ _ hc₃ _ =>
        Gives.pure hc₃ (by rw [Statement.mentions]; exact .nil)
  · exact (gives_skip hc).bind fun _ _ hc₁ _ =>
      (gives_endStatement hc₁).bind fun _ _ hc₂ _ =>
        Gives.pure hc₂ (by rw [Statement.mentions]; exact .nil)
  · exact h.eval hc token

theorem readsSpelled (tokens : List Token) (fuel : Nat) : ReadsSpelled tokens fuel := by
  -- Without fuel all readers fail; with fuel each calls the others with one unit less.
  induction fuel with
  | zero =>
    constructor <;> intros
    · rw [expressionFrom]; exact gives_failUnexpected
    · rw [conditionalFrom]; exact gives_failUnexpected
    · rw [blockFrom]; exact gives_failUnexpected
    · rw [statementFrom]; exact gives_failUnexpected
  | succ fuel ih =>
    exact ⟨ih.expressionFrom_succ, ih.conditionalFrom_succ, ih.blockFrom_succ,
      ih.statementFrom_succ⟩

end Grammar

end FrontEnd
