import FrontEnd.Proofs.Grammar.LineBreaks

/-!
# Reading up to a fence

What is read of some tokens does not depend on those that come after, but for the one that
is looked at next. Two cursors are moved side by side over the same tokens, up to a fence
behind which the tokens differ: as long as a reader stops before the fence on one side, it
does the same on the other.
-/

namespace FrontEnd.Grammar

open Token (Kind Mark Keyword Shape)

variable {α β : Type} {tokens : List Token} {last : Nat} {c d c' d' : Cursor}

/-- The places up to which the tokens of two lists are the same. What stands behind the right one
does not go on with what has been read: it is neither the parenthesis of a call nor the `else` of
a conditional, unless that is what stands behind the left one too. -/
structure Fence (tokens : List Token) (last : Nat) where
  left : Cursor
  right : Cursor
  within : left.Within tokens last
  paren : right.kind = .mark .openParen → left.kind = .mark .openParen
  orElse : right.skipTerminators.kind = .keyword .elseKw →
    left.skipTerminators.kind = .keyword .elseKw

/-- Two cursors with the same tokens before them: all that are left if there is no fence, and else
those up to the fence. -/
inductive Beside (F : Option (Fence tokens last)) : Cursor → Cursor → Prop
  | fence {f : Fence tokens last} (h : F = some f) : Beside F f.left f.right
  | last {c d : Cursor} (hF : F = none) (hsame : c.current.Same d.current)
    (hend : c.kind = .endOfFile) : Beside F c d
  | step {c d : Cursor} (hsame : c.current.Same d.current) (hc : c.rest ≠ []) (hd : d.rest ≠ [])
    (hnext : Beside F c.next d.next) : Beside F c d

/-- Two such cursors that are not at the fence. -/
structure Level (F : Option (Fence tokens last)) (c d : Cursor) : Prop where
  within : c.Within tokens last
  beside : Beside F c d
  same : c.current.Same d.current
  next : c.kind ≠ .endOfFile → Beside F c.next d.next

theorem Cursor.Within.rest_ne_nil (hc : c.Within tokens last) (h : c.kind ≠ .endOfFile) :
    c.rest ≠ [] := by
  intro hrest
  have hlt := hc.index_lt_next h
  have hnext : c.next = c := by
    rw [Cursor.next, hrest]
  rw [hnext] at hlt
  exact Nat.lt_irrefl _ hlt

theorem Cursor.Within.index_next (hc : c.Within tokens last) (h : c.kind ≠ .endOfFile) :
    c.next.index = c.index + 1 := (Cursor.next_spec (hc.rest_ne_nil h)).1

namespace Beside

variable {F : Option (Fence tokens last)}

theorem level_or_fence (hc : c.Within tokens last) (h : Beside F c d) :
    Level F c d ∨ ∃ f, F = some f ∧ c = f.left ∧ d = f.right := by
  cases id h with
  | @fence f hF => exact .inr ⟨f, hF, rfl, rfl⟩
  | last _ hsame hend => exact .inl ⟨hc, h, hsame, fun hkind => absurd hend hkind⟩
  | step hsame _ _ hnext => exact .inl ⟨hc, h, hsame, fun _ => hnext⟩

/-- A cursor is beside itself. -/
theorem refl (hc : c.Within tokens last) : Beside (none : Option (Fence tokens last)) c c := by
  induction hleft : last - c.index using Nat.strong_induction_on generalizing c with
  | _ left ih =>
  by_cases hkind : c.kind = .endOfFile
  · exact .last rfl ⟨rfl, rfl⟩ hkind
  · have hrest := hc.rest_ne_nil hkind
    have hlt := hc.index_lt hkind
    have hnext := hc.index_lt_next hkind
    exact .step ⟨rfl, rfl⟩ hrest hrest (ih _ (by omega) (hc.next hkind).within rfl)

/-- No cursor is beside another one past the fence. -/
theorem index_le {f : Fence tokens last} (h : Beside (some f) c d) : c.index ≤ f.left.index := by
  induction h with
  | fence hF => rw [Option.some.inj hF]
  | last hF => cases hF
  | @step c d _ hc _ _ ih =>
    rw [(Cursor.next_spec hc).1] at ih
    omega

theorem eq_right {f : Fence tokens last} (h : Beside (some f) c d)
    (hindex : c.index = f.left.index) : c = f.left ∧ d = f.right := by
  cases h with
  | fence hF =>
    obtain rfl := Option.some.inj hF
    exact ⟨rfl, rfl⟩
  | last hF => cases hF
  | step _ hc _ hnext =>
    have hle := hnext.index_le
    rw [(Cursor.next_spec hc).1] at hle
    omega

/-- Terminators are skipped on both sides, unless the fence stands behind some of them. -/
theorem skipTerminators (hc : c.Within tokens last) (h : Beside F c d) :
    Level F c.skipTerminators d.skipTerminators ∨ ∃ f, F = some f ∧
      c.skipTerminators = f.left.skipTerminators ∧ d.skipTerminators = f.right.skipTerminators := by
  induction h with
  | @fence f hF => exact .inr ⟨f, hF, rfl, rfl⟩
  | @last c d hF hsame hend =>
    have hd : d.kind = c.kind := (congrArg Shape.kind hsame.shape).symm
    rw [Cursor.skipTerminators_of_ne (by rw [hend]; decide),
      Cursor.skipTerminators_of_ne (by rw [hd, hend]; decide)]
    exact .inl ⟨hc, .last hF hsame hend, hsame, fun hkind => absurd hend hkind⟩
  | @step c d hsame hrest hrest' hnext ih =>
    have hd : c.kind = d.kind := congrArg Shape.kind hsame.shape
    by_cases hkind : c.kind = .terminator
    · rw [Cursor.skipTerminators_of_terminator hkind hrest,
        Cursor.skipTerminators_of_terminator (hd ▸ hkind) hrest']
      exact ih (hc.next (Cursor.goesOn hkind (by decide))).within
    · rw [Cursor.skipTerminators_of_ne hkind, Cursor.skipTerminators_of_ne (hd ▸ hkind)]
      exact .inl ⟨hc, .step hsame hrest hrest' hnext, hsame, fun _ => hnext⟩

end Beside

namespace Level

variable {F : Option (Fence tokens last)}

theorem refl (hc : c.Within tokens last) : Level (none : Option (Fence tokens last)) c c := by
  rcases (Beside.refl hc).level_or_fence hc with h | ⟨f, hF, -⟩
  · exact h
  · cases hF

theorem shape (h : Level F c d) : c.current.shape = d.current.shape := h.same.shape

theorem kind (h : Level F c d) : c.kind = d.kind := congrArg Shape.kind h.shape

theorem text (h : Level F c d) : c.current.text = d.current.text := h.same.text

end Level

/-! ## Judgements -/

/-- Anywhere: nothing is said of the place where a reader stops. -/
def Anywhere (_ _ : Cursor) : Prop := True

/-- Some tokens on. -/
def Further (c c' : Cursor) : Prop := c.index < c'.index

/-- Some tokens on, behind the end of a block. -/
structure BehindBlock (tokens : List Token) (c c' : Cursor) : Prop where
  further : Further c c'
  closed : ∃ t, tokens[c'.index - 1]? = some t ∧ t.kind = .mark .closeCurly

/-- Where the first reader stops, it has moved on in the file, to where `Q` says. If it stops at
least `slack` tokens before the fence, then the second reader, from the other cursor, gives what is
the same as `R` says, and stops beside it. -/
def Mirrors (F : Option (Fence tokens last)) (R : α → α → Prop) (Q : Cursor → Cursor → Prop)
    (slack : Nat) (x y : Parse α) (c d : Cursor) : Prop :=
  ∀ a c', x c = .ok a c' → c.Reaches tokens last c' ∧ Q c c' ∧
    ((∀ f, F = some f → c'.index + slack ≤ f.left.index) →
      ∃ b d', y d = .ok b d' ∧ R a b ∧ Beside F c' d')

namespace Mirrors

variable {F : Option (Fence tokens last)} {R : α → α → Prop} {R' : β → β → Prop}
  {P Q S : Cursor → Cursor → Prop} {slack slack' : Nat} {x y : Parse α}

theorem pure {a b : α} (hc : c.Within tokens last) (h : Beside F c d) (hQ : Q c c) (hR : R a b) :
    Mirrors F R Q slack (Pure.pure a) (Pure.pure b) c d := by
  intro a' c' ha
  cases ha
  exact ⟨hc.reaches, hQ, fun _ => ⟨b, d, rfl, hR, h⟩⟩

theorem of_error {fault : Fault} (h : x c = .error fault c') : Mirrors F R Q slack x y c d := by
  intro a c'' ha
  rw [h] at ha
  cases ha

/-- Readers that have moved on to other places. -/
theorem of_reaches {x' y' : Parse α} (hc : c.Reaches tokens last c') (hx : x c = x' c')
    (hy : y d = y' d') (hQ : ∀ c'', c'.index ≤ c''.index → P c' c'' → Q c c'')
    (h : Mirrors F R P slack x' y' c' d') : Mirrors F R Q slack x y c d := by
  intro a c'' ha
  obtain ⟨hreaches, hP, hmirror⟩ := h a c'' (hx ▸ ha)
  rw [hy]
  exact ⟨hc.trans hreaches, hQ c'' hreaches.forward hP, hmirror⟩

theorem mono (h : Mirrors F R P slack x y c d) (hc : c.Within tokens last)
    (hQ : ∀ c', c.index ≤ c'.index → P c c' → Q c c') : Mirrors F R Q slack x y c d :=
  h.of_reaches hc.reaches rfl rfl hQ

/-- What may stop at the fence has been mirrored where it stops before the fence. -/
theorem before (h : Mirrors F R P 0 x y c d) (hQ : ∀ c', P c c' → Q c c') :
    Mirrors F R Q slack x y c d := by
  intro a c' ha
  obtain ⟨hreaches, hP, hmirror⟩ := h a c' ha
  exact ⟨hreaches, hQ c' hP, fun hbefore => hmirror fun f hf =>
    Nat.le_trans (Nat.le_add_right _ _) (hbefore f hf)⟩

/-- A reader that moves past the fence need not be mirrored. -/
theorem of_late {x' y' : Parse α} (hc : c.Reaches tokens last c') (hx : x c = x' c')
    (hQ : ∀ c'', c'.index ≤ c''.index → P c' c'' → Q c c'' ∧
      ∃ f, F = some f ∧ f.left.index < c''.index + slack)
    (h : Mirrors (none : Option (Fence tokens last)) R P slack' x' y' c' d') :
    Mirrors F R Q slack x y c d := by
  intro a c'' ha
  obtain ⟨hreaches, hP, -⟩ := h a c'' (hx ▸ ha)
  obtain ⟨hQ, f, hf, hlt⟩ := hQ c'' hreaches.forward hP
  exact ⟨hc.trans hreaches, hQ, fun hbefore => absurd (hbefore f hf) (Nat.not_le_of_lt hlt)⟩

/-- What starts at the fence ends behind it, so that it need not be mirrored. -/
theorem of_level (hc : c.Within tokens last) (hb : Beside F c d)
    (hlate : ∀ c', c.index ≤ c'.index → Q c c' → c.index < c'.index + slack)
    (h : ∀ {F' : Option (Fence tokens last)} {d'}, Level F' c d' → Mirrors F' R Q slack x y c d') :
    Mirrors F R Q slack x y c d := by
  rcases hb.level_or_fence hc with hlevel | ⟨f, rfl, rfl, -⟩
  · exact h hlevel
  · exact of_late hc.reaches rfl (fun c' hle hQ => ⟨hQ, f, rfl, hlate c' hle hQ⟩) (h (.refl hc))

/-- What has to stop before the fence need not be mirrored at the fence. -/
theorem of_level_before (hc : c.Within tokens last) (hb : Beside F c d)
    (h : ∀ {F' : Option (Fence tokens last)} {d'}, Level F' c d' → Mirrors F' R Q 1 x y c d') :
    Mirrors F R Q 1 x y c d :=
  of_level hc hb (fun _ hle _ => Nat.lt_succ_of_le hle) h

/-- The second of two readers is mirrored from wherever the first one stops, also from places behind
the fence: there it is beside itself, and so it is known to move on. -/
theorem bind {f g : α → Parse β} (h : Mirrors F R P slack' x y c d) (hR : ∀ a, R a a)
    (hQ : ∀ c₁ c₂, c.index ≤ c₁.index → P c c₁ → c₁.index ≤ c₂.index → S c₁ c₂ →
      Q c c₂ ∧ c₁.index + slack' ≤ c₂.index + slack)
    (hf : ∀ {F' : Option (Fence tokens last)} {a b c₁ d₁}, c.Reaches tokens last c₁ → R a b →
      Beside F' c₁ d₁ → Mirrors F' R' S slack (f a) (g b) c₁ d₁) :
    Mirrors F R' Q slack (x >>= f) (y >>= g) c d := by
  intro r c₂ hr
  have hbind : EStateM.bind x f c = .ok r c₂ := hr
  rw [EStateM.bind] at hbind
  cases hx : x c with
  | error fault c₁ =>
    rw [hx] at hbind
    cases hbind
  | ok a c₁ =>
    rw [hx] at hbind
    obtain ⟨hreaches, hP, hmirror⟩ := h a c₁ hx
    obtain ⟨hreaches', hS, -⟩ := hf hreaches (hR a) (.refl hreaches.within) r c₂ hbind
    obtain ⟨hQ, hslack⟩ := hQ c₁ c₂ hreaches.forward hP hreaches'.forward hS
    refine ⟨hreaches.trans hreaches', hQ, fun hbefore => ?_⟩
    obtain ⟨b, d₁, hy, hab, hb⟩ := hmirror fun f hf => Nat.le_trans hslack (hbefore f hf)
    obtain ⟨-, -, hmirror'⟩ := hf hreaches hab hb r c₂ hbind
    obtain ⟨r', d₂, hrun, hR', hb'⟩ := hmirror' hbefore
    exact ⟨r', d₂, (bind_run hy g).trans hrun, hR', hb'⟩

/-- What is made of what two readers give. -/
theorem map {f g : α → β} (h : Mirrors F R Q slack x y c d) (hf : ∀ a b, R a b → R' (f a) (g b)) :
    Mirrors F R' Q slack (do return f (← x)) (do return g (← y)) c d := by
  intro r c' hr
  have hbind : EStateM.bind x (fun a => Pure.pure (f a)) c = .ok r c' := hr
  rw [EStateM.bind] at hbind
  cases hx : x c with
  | error fault c₁ =>
    rw [hx] at hbind
    cases hbind
  | ok a c₁ =>
    rw [hx] at hbind
    cases hbind
    obtain ⟨hreaches, hQ, hmirror⟩ := h a c' hx
    refine ⟨hreaches, hQ, fun hbefore => ?_⟩
    obtain ⟨b, d₁, hy, hab, hb⟩ := hmirror hbefore
    exact ⟨g b, d₁, bind_run hy _, hf a b hab, hb⟩

theorem get_bind {f g : Cursor → Parse β} (hc : c.Within tokens last)
    (h : Mirrors F R' Q slack (f c) (g d) c d) :
    Mirrors F R' Q slack (get >>= f) (get >>= g) c d :=
  h.of_reaches hc.reaches rfl rfl fun _ _ => id

theorem skip_bind {f g : Unit → Parse β} (hc : c.Within tokens last) (hkind : c.kind ≠ .endOfFile)
    (hQ : ∀ c', c.next.index ≤ c'.index → P c.next c' → Q c c')
    (h : Mirrors F R' P slack (f ()) (g ()) c.next d.next) :
    Mirrors F R' Q slack (discard advance >>= f) (discard advance >>= g) c d :=
  h.of_reaches (hc.next hkind) rfl rfl hQ

theorem advance_bind {f g : Nat → Parse β} (hc : c.Within tokens last) (hkind : c.kind ≠ .endOfFile)
    (hQ : ∀ c', c.next.index ≤ c'.index → P c.next c' → Q c c')
    (h : Mirrors F R' P slack (f c.index) (g d.index) c.next d.next) :
    Mirrors F R' Q slack (advance >>= f) (advance >>= g) c d :=
  h.of_reaches (hc.next hkind) rfl rfl hQ

/-- A check that fails if it is made stands before what is read next. -/
theorem check {b : Prop} [Decidable b] {x x' : Parse Unit} {f g : Unit → Parse β} {fault : Fault}
    (hx : x c = .error fault c') (hf : ¬b → Mirrors F R' Q slack (f ()) (g ()) c d) :
    Mirrors F R' Q slack (if b then x >>= f else f ()) (if b then x' >>= g else g ()) c d := by
  by_cases hb : b
  · rw [if_pos hb, if_pos hb]
    have herror : (x >>= f) c = .error fault c' := by
      show EStateM.bind x f c = _
      rw [EStateM.bind, hx]
    exact of_error herror
  · rw [if_neg hb, if_neg hb]
    exact hf hb

/-- Readers that have to stop before the fence, one after the other. -/
theorem bind_before {f g : α → Parse β} (h : Mirrors F R Anywhere 1 x y c d) (hR : ∀ a, R a a)
    (hf : ∀ {F' : Option (Fence tokens last)} {a b c₁ d₁}, c.Reaches tokens last c₁ → R a b →
      Beside F' c₁ d₁ → Mirrors F' R' Anywhere 1 (f a) (g b) c₁ d₁) :
    Mirrors F R' Anywhere 1 (x >>= f) (y >>= g) c d :=
  h.bind hR (fun _ _ _ _ hle _ => ⟨trivial, Nat.succ_le_succ hle⟩) hf

theorem discard_bind_before {f g : Unit → Parse β} (h : Mirrors F R Anywhere 1 x y c d)
    (hf : ∀ {F' : Option (Fence tokens last)} {c₁ d₁}, c.Reaches tokens last c₁ →
      Beside F' c₁ d₁ → Mirrors F' R' Anywhere 1 (f ()) (g ()) c₁ d₁) :
    Mirrors F R' Anywhere 1 (discard x >>= f) (discard y >>= g) c d := by
  have hdiscard : Mirrors F (fun _ _ => True) Anywhere 1 (discard x) (discard y) c d :=
    h.map fun _ _ _ => trivial
  exact hdiscard.bind_before (fun _ => trivial) fun hc₁ _ => hf hc₁

theorem skip_bind_before {f g : Unit → Parse β} (hc : c.Within tokens last)
    (hkind : c.kind ≠ .endOfFile)
    (h : Mirrors F R' Anywhere 1 (f ()) (g ()) c.next d.next) :
    Mirrors F R' Anywhere 1 (discard advance >>= f) (discard advance >>= g) c d :=
  h.skip_bind hc hkind fun _ _ _ => trivial

/-- A token, and then what has to stop before the fence. -/
theorem skip_bind_further {f g : Unit → Parse β} (hc : c.Within tokens last)
    (hkind : c.kind ≠ .endOfFile)
    (h : Mirrors F R' Anywhere 1 (f ()) (g ()) c.next d.next) :
    Mirrors F R' Further 1 (discard advance >>= f) (discard advance >>= g) c d :=
  h.skip_bind hc hkind fun _ hle _ => Nat.lt_of_lt_of_le (hc.index_lt_next hkind) hle

end Mirrors

/-! ## Leaves -/

variable {F : Option (Fence tokens last)}

theorem mirrors_expect (hc : c.Within tokens last) (h : Beside F c d) (k : Kind)
    (hk : k ≠ .endOfFile) :
    Mirrors F (fun _ _ => True) Anywhere 1 (expect k) (expect k) c d := by
  refine .of_level_before hc h fun {F' d'} h => .get_bind hc ?_
  rw [← h.kind]
  split
  · next hkind =>
    have hend := Cursor.goesOn hkind hk
    exact .of_reaches (P := Anywhere) (hc.next hend) rfl rfl (fun _ _ => id)
      (.pure (a := c.index) (b := d'.index) (hc.next hend).within (h.next hend) trivial trivial)
  · exact .of_error rfl

theorem mirrors_simpleIdentifier (hc : c.Within tokens last) (h : Beside F c d) :
    Mirrors F (fun a b => a.2 = b.2) Further 1 simpleIdentifier simpleIdentifier c d := by
  refine .of_level_before hc h fun h => .get_bind hc ?_
  rw [← h.shape, ← h.text]
  split
  · next path hshape =>
    split
    · have hend := Cursor.goesOn (kind_of_identifier hshape) (by decide)
      exact .advance_bind hc hend (fun _ hle _ => Nat.lt_of_lt_of_le (hc.index_lt_next hend) hle)
        (.pure (Q := Anywhere) (hc.next hend).within (h.next hend) trivial rfl)
    · exact .of_error rfl
  · exact .of_error rfl

theorem mirrors_endStatement (hc : c.Within tokens last) (h : Beside F c d) :
    Mirrors F (fun _ _ => True) Anywhere 1 endStatement endStatement c d := by
  refine .of_level_before hc h fun {F' d'} h => .get_bind hc ?_
  rw [← h.kind]
  split
  · next hkind =>
    have hend := Cursor.goesOn hkind (by decide)
    exact .of_reaches (P := Anywhere) (hc.next hend) rfl rfl (fun _ _ => id)
      (.pure (a := ()) (b := ()) (hc.next hend).within (h.next hend) trivial trivial)
  · exact .pure hc h.beside trivial trivial
  · exact .pure hc h.beside trivial trivial
  · exact .of_error rfl

theorem mirrors_typeName (hc : c.Within tokens last) (h : Beside F c d) :
    Mirrors F Eq Anywhere 1 typeName typeName c d := by
  refine .of_level_before hc h fun h => .get_bind hc ?_
  rw [← h.kind, ← h.text]
  refine .check rfl fun hkind => ?_
  split
  · have hend := Cursor.goesOn (not_not.mp hkind) (by decide)
    exact .skip_bind_before hc hend (.pure (hc.next hend).within (h.next hend) trivial rfl)
  · exact .of_error rfl

theorem mirrors_exitAmount (hc : c.Within tokens last) (h : Beside F c d) :
    Mirrors F Eq Anywhere 1 exitAmount exitAmount c d := by
  refine .of_level_before hc h fun h => .get_bind hc ?_
  rw [← h.kind]
  split
  · exact .pure hc h.beside trivial rfl
  · next hstar =>
    have hend := Cursor.goesOn (not_not.mp hstar) (by decide)
    have hnext := (hc.next hend).within
    refine .skip_bind_before hc hend (.of_level_before hnext (h.next hend) fun {F₁ d₁} h =>
      .get_bind hnext ?_)
    have hint : c.next.current.toInt? = d₁.current.toInt? := by
      unfold Token.toInt? Token.number?
      rw [h.shape]
    rw [← hint]
    split
    · next amount hamount =>
      have hend := Cursor.goesOn (kind_of_toInt? hamount) (by decide)
      exact .skip_bind_before hnext hend (.pure (hnext.next hend).within (h.next hend) trivial rfl)
    · exact .of_error rfl

end FrontEnd.Grammar
