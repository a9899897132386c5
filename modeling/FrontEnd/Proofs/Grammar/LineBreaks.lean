import FrontEnd.Proofs.Grammar.Advancing
import FrontEnd.Proofs.Grammar.Expressions
import FrontEnd.Proofs.Grammar.Forgetting
import FrontEnd.Proofs.Printing.Operands
import FrontEnd.Proofs.Token.Respacing

/-!
# Other line breaks

Where an operand is awaited, after an operator, an opening parenthesis or a comma, line
breaks say nothing. Token lists that differ in such line breaks only are read side by side:
what can be read of one can be read of the other, with enough fuel.
-/

namespace FrontEnd.Grammar

open Token (Kind Mark Keyword Shape)

/-- What the token before a place says of line breaks there. -/
inductive Standing
  | plain
  /-- After `break`, where a star is no operator. -/
  | afterBreak
  /-- Where an operand is awaited. -/
  | awaiting
  deriving DecidableEq

/-- What a token says of line breaks after it, given what is said of those before it. -/
def Standing.after : Standing → Shape → Standing
  | _, .keyword .breakKw => .afterBreak
  | .afterBreak, .mark .star => .plain
  | _, s => if awaitsOperand s then .awaiting else .plain

/-- Only after `break` does it matter for what comes next what stood before a token. -/
theorem Standing.after_awaiting (shape : Shape) :
    Standing.after .awaiting shape = Standing.after .plain shape := by
  cases shape with
  | keyword k => cases k <;> rfl
  | mark m => cases m <;> rfl
  | _ => rfl

/-- The lists differ in line breaks only, and only where an operand is awaited: there any number of
them may be inserted and deleted. Tokens may have moved. -/
inductive Rebroken : Standing → List Token → List Token → Prop
  | nil {s : Standing} : Rebroken s [] []
  | keep {s : Standing} {t u : Token} {ts us : List Token} (h : t.Same u)
    (hrest : Rebroken (s.after t.shape) ts us) : Rebroken s (t :: ts) (u :: us)
  | insert {b : Token} {ts us : List Token} (hb : b.shape = .terminator)
    (h : Rebroken .awaiting ts us) : Rebroken .awaiting ts (b :: us)
  | delete {b : Token} {ts us : List Token} (hb : b.shape = .terminator)
    (h : Rebroken .awaiting ts us) : Rebroken .awaiting (b :: ts) us

/-- Whether tokens of a kind await an operand. -/
def awaits : Kind → Bool
  | .mark m => awaitsOperand (.mark m)
  | _ => false

theorem awaitsOperand_eq (shape : Shape) : awaitsOperand shape = awaits shape.kind := by
  cases shape with
  | numeral n =>
    obtain ⟨number, suffix⟩ := n
    cases number <;> rfl
  | _ => rfl

theorem Standing.after_ne_awaiting {s : Standing} {shape : Shape} (h : awaits shape.kind = false) :
    s.after shape ≠ .awaiting := by
  rw [← awaitsOperand_eq] at h
  unfold after
  split
  · nofun
  · nofun
  · rw [h]
    nofun

namespace Rebroken

variable {s : Standing} {ts us : List Token}

/-- The end of the file is no line break. -/
theorem exists_endOfFile (h : Rebroken s ts us) (ht : ∃ t ∈ ts, t.kind = .endOfFile) :
    ∃ u ∈ us, u.kind = .endOfFile := by
  induction h with
  | nil => exact ht
  | @keep _ t u _ _ hsame _ ih =>
    obtain ⟨t', ht', hkind⟩ := ht
    rcases List.mem_cons.mp ht' with rfl | ht'
    · exact ⟨u, List.mem_cons_self, (congrArg Shape.kind hsame.shape).symm.trans hkind⟩
    · obtain ⟨u', hu', hkind'⟩ := ih ⟨t', ht', hkind⟩
      exact ⟨u', List.mem_cons_of_mem _ hu', hkind'⟩
  | insert _ _ ih =>
    obtain ⟨u', hu', hkind'⟩ := ih ht
    exact ⟨u', List.mem_cons_of_mem _ hu', hkind'⟩
  | delete hb _ ih =>
    obtain ⟨t', ht', hkind⟩ := ht
    rcases List.mem_cons.mp ht' with rfl | ht'
    · rw [Token.kind, hb] at hkind
      cases hkind
    · exact ih ⟨t', ht', hkind⟩

end Rebroken

variable {α β γ δ : Type} {s : Standing} {c d c' d' : Cursor}

/-- Two cursors in lists that differ in line breaks only. There is an end of the file to come. -/
structure Lined (s : Standing) (c d : Cursor) : Prop where
  tokens : Rebroken s (c.current :: c.rest) (d.current :: d.rest)
  ends : ∃ t ∈ c.current :: c.rest, t.kind = .endOfFile

/-- Two such cursors at the same token. -/
def Aligned (c d : Cursor) : Prop := ∃ s, s ≠ .awaiting ∧ Lined s c d

theorem exists_endOfFile_rest (h : ∃ t ∈ c.current :: c.rest, t.kind = .endOfFile)
    (hkind : c.kind ≠ .endOfFile) : ∃ t ∈ c.rest, t.kind = .endOfFile := by
  obtain ⟨t, ht, hend⟩ := h
  rcases List.mem_cons.mp ht with rfl | ht
  · exact absurd hend hkind
  · exact ⟨t, ht, hend⟩

theorem Cursor.next_eq_rest (h : ∃ t ∈ c.rest, t.kind = .endOfFile) :
    c.next.current :: c.next.rest = c.rest := by
  obtain ⟨t, ht, -⟩ := h
  exact (c.next_spec (List.ne_nil_of_mem ht)).2

theorem Cursor.skipTerminators_of_terminator (hkind : c.kind = .terminator) (hrest : c.rest ≠ []) :
    c.skipTerminators = c.next.skipTerminators := by
  obtain ⟨index, t, _ | ⟨u, rest⟩⟩ := c
  · exact absurd rfl hrest
  · exact if_pos hkind

namespace Lined

theorem of_rest (h : Rebroken s c.rest d.rest) (hc : ∃ t ∈ c.rest, t.kind = .endOfFile) :
    Lined s c.next d.next := by
  have hd := h.exists_endOfFile hc
  constructor
  · rw [Cursor.next_eq_rest hc, Cursor.next_eq_rest hd]
    exact h
  · rw [Cursor.next_eq_rest hc]
    exact hc

theorem keep (h : Lined s c d) (hs : s ≠ .awaiting) :
    c.current.Same d.current ∧ Rebroken (s.after c.current.shape) c.rest d.rest := by
  obtain ⟨htokens, -⟩ := h
  cases htokens with
  | keep hsame hrest => exact ⟨hsame, hrest⟩
  | insert => exact absurd rfl hs
  | delete => exact absurd rfl hs

theorem next (h : Lined s c d) (hs : s ≠ .awaiting) (hkind : c.kind ≠ .endOfFile) :
    Lined (s.after c.current.shape) c.next d.next :=
  of_rest (h.keep hs).2 (exists_endOfFile_rest h.ends hkind)

end Lined

namespace Aligned

/-- Where an operand is awaited too, cursors may stand at the same token. -/
theorem of_same (hsame : c.current.Same d.current)
    (hrest : Rebroken (s.after c.current.shape) c.rest d.rest)
    (hends : ∃ t ∈ c.current :: c.rest, t.kind = .endOfFile) : Aligned c d := by
  cases s with
  | plain => exact ⟨.plain, by decide, .keep hsame hrest, hends⟩
  | afterBreak => exact ⟨.afterBreak, by decide, .keep hsame hrest, hends⟩
  | awaiting =>
    rw [Standing.after_awaiting] at hrest
    exact ⟨.plain, by decide, .keep hsame hrest, hends⟩

theorem same (h : Aligned c d) : c.current.Same d.current := by
  obtain ⟨s, hs, h⟩ := h
  exact (h.keep hs).1

theorem shape (h : Aligned c d) : c.current.shape = d.current.shape := h.same.shape

theorem kind (h : Aligned c d) : c.kind = d.kind := congrArg Shape.kind h.shape

theorem text (h : Aligned c d) : c.current.text = d.current.text := h.same.text

theorem next (h : Aligned c d) {k : Kind} (hkind : c.kind = k)
    (hk : k ≠ .endOfFile ∧ awaits k = false) : Aligned c.next d.next := by
  obtain ⟨s, hs, h⟩ := h
  refine ⟨_, Standing.after_ne_awaiting ?_, h.next hs (Cursor.goesOn hkind hk.1)⟩
  show awaits c.kind = false
  rw [hkind]
  exact hk.2

/-- What follows is looked at before the cursors move. -/
theorem nextKind (h : Aligned c d) {k : Kind} (hkind : c.kind = k)
    (hk : k ≠ .endOfFile ∧ awaits k = false) : c.nextKind = d.nextKind := by
  rw [← Cursor.kind_next, ← Cursor.kind_next]
  exact (h.next hkind hk).kind

theorem rest_ne_nil (h : Aligned c d) (hkind : c.kind ≠ .endOfFile) :
    c.rest ≠ [] ∧ d.rest ≠ [] := by
  obtain ⟨s, hs, h⟩ := h
  have hc := exists_endOfFile_rest h.ends hkind
  obtain ⟨u, hu, -⟩ := (h.keep hs).2.exists_endOfFile hc
  obtain ⟨t, ht, -⟩ := hc
  exact ⟨List.ne_nil_of_mem ht, List.ne_nil_of_mem hu⟩

/-- Terminators that stand in both lists are skipped in both. -/
theorem skipTerminators (h : Aligned c d) : Aligned c.skipTerminators d.skipTerminators := by
  obtain ⟨index, t, rest⟩ := c
  induction rest generalizing index t d with
  | nil =>
    have hkind : t.kind = .endOfFile := by
      by_contra hkind
      exact (h.rest_ne_nil hkind).1 rfl
    rw [Cursor.skipTerminators_of_ne (c := d) (by rw [← h.kind, Cursor.kind, hkind]; decide)]
    exact h
  | cons u rest ih =>
    by_cases hkind : t.kind = .terminator
    · have hd : d.skipTerminators = d.next.skipTerminators :=
        Cursor.skipTerminators_of_terminator (h.kind.symm.trans hkind)
          (h.rest_ne_nil (Cursor.goesOn hkind (by decide))).2
      rw [hd, Cursor.skipTerminators_of_terminator (c := ⟨index, t, u :: rest⟩) hkind
        (List.cons_ne_nil u rest)]
      exact ih _ _ (h.next hkind (by decide))
    · have hd : d.kind ≠ .terminator := h.kind ▸ hkind
      rw [Cursor.skipTerminators_of_ne hd,
        Cursor.skipTerminators_of_ne (c := ⟨index, t, u :: rest⟩) hkind]
      exact h

end Aligned

/-! ## Reading side by side -/

/-- Whenever one reader gives something, another one does so too, with enough fuel. What they give
is as `R` says, and where they stop as `P` says. -/
def Follows (R : α → β → Prop) (P : Cursor → Cursor → Prop) (x : Parse α) (y : Nat → Parse β)
    (c d : Cursor) : Prop :=
  ∀ a c', x c = .ok a c' →
    ∃ b d' least, (∀ fuel, least ≤ fuel → y fuel d = .ok b d') ∧ R a b ∧ P c' d'

namespace Follows

variable {R : α → β → Prop} {R' : γ → δ → Prop} {P P' : Cursor → Cursor → Prop} {x : Parse α}
  {y : Nat → Parse β}

theorem pure {a : α} {b : β} (hP : P c d) (hR : R a b) :
    Follows R P (Pure.pure a) (fun _ => Pure.pure b) c d := by
  intro a' c' h
  cases h
  exact ⟨b, d, 0, fun _ _ => rfl, hR, hP⟩

theorem of_error {fault : Fault} (h : x c = .error fault c') : Follows R P x y c d := by
  intro a c'' ha
  rw [h] at ha
  cases ha

theorem mono {Q : Cursor → Cursor → Prop} (h : Follows R P x y c d)
    (hP : ∀ c' d', P c' d' → Q c' d') : Follows R Q x y c d := by
  intro a c' ha
  obtain ⟨b, d', least, hrun, hR, hPd⟩ := h a c' ha
  exact ⟨b, d', least, hrun, hR, hP c' d' hPd⟩

theorem of_failUnexpected : Follows R P failUnexpected y c d := by
  have herror : (failUnexpected : Parse α) c = .error c.unexpected c := rfl
  exact of_error herror

/-- Readers that have moved on to other places. -/
theorem of_eq {x' : Parse α} {y' : Nat → Parse β} (hx : x c = x' c')
    (hy : ∀ fuel, y fuel d = y' fuel d') (h : Follows R P x' y' c' d') : Follows R P x y c d := by
  intro a c'' ha
  rw [hx] at ha
  simp only [hy]
  exact h a c'' ha

/-- With one unit of fuel more. -/
theorem of_succ (h : Follows R P x (fun fuel => y (fuel + 1)) c d) : Follows R P x y c d := by
  intro a c' ha
  obtain ⟨b, d', least, hrun, hR, hP⟩ := h a c' ha
  refine ⟨b, d', least + 1, fun fuel hfuel => ?_, hR, hP⟩
  obtain ⟨fuel, rfl⟩ := Nat.exists_eq_add_of_le' (show 1 ≤ fuel by omega)
  exact hrun fuel (by omega)

theorem bind {f : α → Parse γ} {g : Nat → β → Parse δ} (h : Follows R P x y c d)
    (hf : ∀ a b c' d', R a b → P c' d' → Follows R' P' (f a) (fun fuel => g fuel b) c' d') :
    Follows R' P' (x >>= f) (fun fuel => y fuel >>= g fuel) c d := by
  intro r c'' hr
  have hbind : EStateM.bind x f c = .ok r c'' := hr
  rw [EStateM.bind] at hbind
  cases hx : x c with
  | error fault c' =>
    rw [hx] at hbind
    cases hbind
  | ok a c' =>
    rw [hx] at hbind
    obtain ⟨b, d', least, hrun, hR, hP⟩ := h a c' hx
    obtain ⟨r', d'', least', hrun', hR', hP'⟩ := hf a b c' d' hR hP r c'' hbind
    exact ⟨r', d'', max least least', fun fuel hfuel =>
      (bind_run (hrun fuel (by omega)) (g fuel)).trans (hrun' fuel (by omega)), hR', hP'⟩

theorem discard_bind {f : Unit → Parse γ} {g : Nat → Unit → Parse δ} (h : Follows R P x y c d)
    (hf : ∀ c' d', P c' d' → Follows R' P' (f ()) (fun fuel => g fuel ()) c' d') :
    Follows R' P' (discard x >>= f) (fun fuel => discard (y fuel) >>= g fuel) c d := by
  have hdiscard : Follows (fun _ _ => True) P (discard x) (fun fuel => discard (y fuel)) c d :=
    h.bind fun _ _ _ _ _ hP => .pure (a := ()) (b := ()) hP trivial
  exact hdiscard.bind fun _ _ c' d' _ hP => hf c' d' hP

/-- What is made of what two readers give. -/
theorem map {f : α → γ} {g : β → δ} (h : Follows R P x y c d) (hf : ∀ a b, R a b → R' (f a) (g b)) :
    Follows R' P (do return f (← x)) (fun fuel => do return g (← y fuel)) c d :=
  h.bind fun a b _ _ hR hP => .pure hP (hf a b hR)

theorem get_bind {f : Cursor → Parse γ} {g : Nat → Cursor → Parse δ}
    (h : Follows R' P' (f c) (fun fuel => g fuel d) c d) :
    Follows R' P' (get >>= f) (fun fuel => get >>= g fuel) c d :=
  of_eq rfl (fun _ => rfl) h

theorem skip_bind {f : Unit → Parse γ} {g : Nat → Unit → Parse δ}
    (h : Follows R' P' (f ()) (fun fuel => g fuel ()) c.next d.next) :
    Follows R' P' (discard advance >>= f) (fun fuel => discard advance >>= g fuel) c d :=
  of_eq rfl (fun _ => rfl) h

theorem advance_bind {f : Nat → Parse γ} {g : Nat → Nat → Parse δ}
    (h : Follows R' P' (f c.index) (fun fuel => g fuel d.index) c.next d.next) :
    Follows R' P' (advance >>= f) (fun fuel => advance >>= g fuel) c d :=
  of_eq rfl (fun _ => rfl) h

theorem set_bind {f : PUnit → Parse γ} {g : Nat → PUnit → Parse δ}
    (h : Follows R' P' (f ⟨⟩) (fun fuel => g fuel ⟨⟩) c' d') :
    Follows R' P' (set c' >>= f) (fun fuel => set d' >>= g fuel) c d :=
  of_eq rfl (fun _ => rfl) h

theorem skipTerminators_bind {f : Unit → Parse γ} {g : Nat → Unit → Parse δ}
    (h : Follows R' P' (f ()) (fun fuel => g fuel ()) c.skipTerminators d.skipTerminators) :
    Follows R' P' (skipTerminators >>= f) (fun fuel => skipTerminators >>= g fuel) c d :=
  of_eq rfl (fun _ => rfl) h

/-- A check that fails if it is made stands before what is read next. -/
theorem check {b : Prop} [Decidable b] {x x' : Parse Unit} {f : Unit → Parse γ}
    {g : Nat → Unit → Parse δ} {fault : Fault} (hx : x c = .error fault c')
    (hf : ¬b → Follows R' P' (f ()) (fun fuel => g fuel ()) c d) :
    Follows R' P' (if b then x >>= f else f ())
      (fun fuel => if b then x' >>= g fuel else g fuel ()) c d := by
  by_cases hb : b
  · simp only [if_pos hb]
    have herror : (x >>= f) c = .error fault c' := by
      show EStateM.bind x f c = _
      rw [EStateM.bind, hx]
    exact of_error herror
  · simp only [if_neg hb]
    exact hf hb

theorem orComplain_bind {e e' : Except Complaint Progress} {f : Progress → Parse γ}
    {g : Nat → Progress → Parse δ}
    (he : e.map Progress.withoutTokens = e'.map Progress.withoutTokens)
    (h : ∀ p q, e = .ok p → p.withoutTokens = q.withoutTokens →
      Follows R' P' (f p) (fun fuel => g fuel q) c d) :
    Follows R' P' (orComplain e >>= f) (fun fuel => orComplain e' >>= g fuel) c d := by
  cases e with
  | error complaint =>
    have herror : (orComplain (.error complaint) >>= f) c = .error (complaint.fault c) c := rfl
    exact of_error herror
  | ok p =>
    obtain ⟨q, rfl, hpq⟩ := Progress.exists_of_map_eq he rfl
    exact of_eq rfl (fun _ => rfl) (h p q rfl hpq)

end Follows

/-! ## Leaves -/

theorem follows_expect (h : Aligned c d) (k : Kind) (hk : k ≠ .endOfFile ∧ awaits k = false) :
    Follows (fun _ _ => True) Aligned (expect k) (fun _ => expect k) c d := by
  refine .get_bind ?_
  rw [← h.kind]
  split
  · next hkind =>
    have hnext := h.next hkind hk
    exact .of_eq rfl (fun _ => rfl) (.pure (a := c.index) (b := d.index) hnext trivial)
  · exact .of_error rfl

theorem follows_simpleIdentifier (h : Aligned c d) :
    Follows (fun a b => a.2 = b.2) Aligned simpleIdentifier (fun _ => simpleIdentifier) c d := by
  refine .get_bind ?_
  rw [← h.shape, ← h.text]
  split
  · next path hshape =>
    split
    · exact .advance_bind (.pure (h.next (kind_of_identifier hshape) (by decide)) rfl)
    · exact .of_error rfl
  · exact .of_error rfl

theorem follows_endStatement (h : Aligned c d) :
    Follows (fun _ _ => True) Aligned endStatement (fun _ => endStatement) c d := by
  refine .get_bind ?_
  rw [← h.kind]
  split
  · next hkind =>
    have hnext := h.next hkind (by decide)
    exact .of_eq rfl (fun _ => rfl) (.pure (a := ()) (b := ()) hnext trivial)
  · exact .pure h trivial
  · exact .pure h trivial
  · exact .of_error rfl

theorem follows_typeName (h : Aligned c d) :
    Follows Eq Aligned typeName (fun _ => typeName) c d := by
  refine .get_bind ?_
  rw [← h.kind, ← h.text]
  refine .check rfl fun hkind => ?_
  split
  · exact .skip_bind (.pure (h.next (not_not.mp hkind) (by decide)) rfl)
  · exact .of_error rfl

/-- The star after `break` is no operator. -/
theorem follows_exitAmount (h : Lined .afterBreak c d) :
    Follows Eq Aligned exitAmount (fun _ => exitAmount) c d := by
  have haligned : Aligned c d := ⟨.afterBreak, by decide, h⟩
  refine .get_bind ?_
  rw [← haligned.kind]
  split
  · exact .pure haligned rfl
  · next hstar =>
    have hstar := not_not.mp hstar
    have hshape : c.current.shape = .mark .star := shape_of_kind hstar
    have hnext : Aligned c.next d.next := by
      refine ⟨_, ?_, h.next (by decide) (Cursor.goesOn hstar (by decide))⟩
      rw [hshape]
      decide
    refine .skip_bind (.get_bind ?_)
    have hint : c.next.current.toInt? = d.next.current.toInt? := by
      unfold Token.toInt? Token.number?
      rw [hnext.shape]
    rw [← hint]
    split
    · next amount hamount =>
      exact .skip_bind (.pure (hnext.next (kind_of_toInt? hamount) (by decide)) rfl)
    · exact .of_error rfl

end FrontEnd.Grammar
