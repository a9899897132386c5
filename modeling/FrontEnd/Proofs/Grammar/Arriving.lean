import FrontEnd.Proofs.Grammar.Enclosed
import FrontEnd.Proofs.Grammar.Rebreaking
import FrontEnd.Proofs.Grammar.SideBySide

/-!
# Where the loop over an expression comes to

The loop over an expression reads on up to a place where the expression ends. Where this is
not past a fence, it comes to the place beside it on the other side, also if more has been
read before the expression there.
-/

namespace FrontEnd.Grammar

open Token (Kind Mark Keyword Shape)

variable {tokens : List Token} {last : Nat} {c d c' d' c₁ d₁ : Cursor}

/-! ## One turn of the loop over an expression -/

namespace Readers

variable (r : Readers) {stop : Option Kind} {p : Progress}

/-- The rest of the loop, from `c'` on, if the progress from `c` to there is no mistake. -/
def goOn (stop : Option Kind) (c c' : Cursor) :
    Except Complaint Progress → EStateM.Result Fault Cursor Expr
  | .error e => .error (e.fault c) c
  | .ok p => r.expression stop p c'

theorem expression_end (hend : endsExpression stop c.kind = true)
    (hopen : ¬(c.kind = .terminator ∧ p.isOpen = true)) :
    r.turn.expression stop p c = endExpression stop p c := by
  show (if c.kind = .terminator ∧ p.isOpen = true then _ else _ : Parse Expr) c = _
  rw [if_neg hopen, if_pos hend]

theorem not_skipped (hgoes : ¬endsExpression stop c.kind = true) :
    ¬(c.kind = .terminator ∧ p.isOpen = true) := fun h =>
  ne_terminator_of_endsExpression (Bool.eq_false_iff.mpr hgoes) h.1

theorem expression_feed (hgoes : ¬endsExpression stop c.kind = true)
    (hif : c.current.shape ≠ .keyword .ifKw)
    (hcall : ∀ path, c.current.shape = .identifier path → c.nextKind ≠ .mark .openParen) :
    r.turn.expression stop p c = r.goOn stop c c.next (p.feed c.index c.current.shape) := by
  have hrun : ∀ result : Except Complaint Progress, (do
      let p ← orComplain result
      discard advance
      r.expression stop p : Parse Expr) c = r.goOn stop c c.next result := by
    rintro (_ | _) <;> rfl
  show (if c.kind = .terminator ∧ p.isOpen = true then _ else _ : Parse Expr) c = _
  rw [if_neg (not_skipped hgoes), if_neg hgoes]
  cases hshape : c.current.shape with
  | identifier path =>
    dsimp only
    rw [if_neg (hcall path hshape)]
    exact hrun _
  | keyword k =>
    cases k with
    | ifKw => exact absurd hshape hif
    | _ => exact hrun _
  | _ => exact hrun _

/-- A mark that does not end the expression. -/
theorem expression_mark {k : Mark} (hgoes : ¬endsExpression stop (.mark k) = true)
    (hshape : c.current.shape = .mark k) :
    r.turn.expression stop p c = r.goOn stop c c.next (p.feed c.index (.mark k)) := by
  have hkind : c.kind = .mark k := congrArg Shape.kind hshape
  rw [expression_feed r (by rwa [hkind]) (by simp [hshape]) (by simp [hshape]), hshape]

theorem expression_call {path : List String} (hgoes : ¬endsExpression stop c.kind = true)
    (hshape : c.current.shape = .identifier path) (hparen : c.nextKind = .mark .openParen) :
    r.turn.expression stop p c = r.goOn stop c c.next.next
      (p.opening (.call c.index path (c.index + 1) 0) true) := by
  show (if c.kind = .terminator ∧ p.isOpen = true then _ else _ : Parse Expr) c = _
  rw [if_neg (not_skipped hgoes), if_neg hgoes, hshape]
  dsimp only
  rw [if_pos hparen]
  cases p.opening (.call c.index path (c.index + 1) 0) true <;> rfl

theorem expression_if (hgoes : ¬endsExpression stop c.kind = true)
    (hshape : c.current.shape = .keyword .ifKw) (hwants : p.wantsOperand = true)
    {branch : Conditional} (hrun : r.conditional c.index c.next = .ok branch c₁) :
    r.turn.expression stop p c = r.goOn stop c₁ c₁ (p.operand (.cond branch)) := by
  show (if c.kind = .terminator ∧ p.isOpen = true then _ else _ : Parse Expr) c = _
  rw [if_neg (not_skipped hgoes), if_neg hgoes, hshape, hwants]
  refine (bind_run hrun _).trans ?_
  cases p.operand (.cond branch) <;> rfl

/-- A conditional that is read is read where an operand is wanted. -/
theorem exists_of_expression_if (hgoes : ¬endsExpression stop c.kind = true)
    (hshape : c.current.shape = .keyword .ifKw) {e : Expr}
    (he : r.turn.expression stop p c = .ok e c') :
    p.wantsOperand = true ∧ ∃ branch c₁, r.conditional c.index c.next = .ok branch c₁ := by
  have hrun : (if c.kind = .terminator ∧ p.isOpen = true then _ else _ : Parse Expr) c =
      .ok e c' := he
  rw [if_neg (not_skipped hgoes), if_neg hgoes, hshape] at hrun
  cases hwants : p.wantsOperand with
  | false =>
    rw [hwants] at hrun
    cases hrun
  | true =>
    rw [hwants] at hrun
    cases hbranch : r.conditional c.index c.next with
    | ok branch c₁ => exact ⟨rfl, branch, c₁, rfl⟩
    | error fault c₁ =>
      have herror : (discard advance >>= fun _ => r.conditional c.index >>= fun branch =>
          orComplain (p.operand (.cond branch)) >>= fun p => r.expression stop p : Parse Expr) c =
          .error fault c₁ := by
        show EStateM.bind (r.conditional c.index) _ c.next = _
        rw [EStateM.bind, hbranch]
      exact absurd (herror.symm.trans hrun) nofun

theorem exists_of_goOn {result : Except Complaint Progress} {e : Expr} {c₂ : Cursor}
    (he : r.goOn stop c c₂ result = .ok e c') :
    ∃ p', result = .ok p' ∧ r.expression stop p' c₂ = .ok e c' := by
  cases result with
  | error complaint => cases he
  | ok p' => exact ⟨p', rfl, he⟩

end Readers

/-! ## The loop over an expression -/

/-- The token before a place is a terminator. -/
def BehindTerminator (tokens : List Token) (c : Cursor) : Prop :=
  ∃ t, tokens[c.index - 1]? = some t ∧ t.kind = .terminator

/-- Where the loop over an expression comes to: a place where it ends, at once or behind a token
that is no terminator. -/
structure ComesTo (tokens : List Token) (last : Nat) (stop : Option Kind) (p : Progress)
    (c : Cursor) (e : Expr) (c' : Cursor) (p' : Progress) (z : Cursor) : Prop where
  reaches : c.Reaches tokens last z
  moved : z = c ∧ p' = p ∨ Further c z ∧ ¬BehindTerminator tokens z
  ends : endsExpression stop z.kind = true
  result : endExpression stop p' z = .ok e c'

/-- The loop over an expression comes to a place where it ends. If this is not past the fence, the
loop on the other side, which has `extra` turns more, comes to the place beside it, with the same
progress on top of what had been read before. -/
def ArrivesWith (extra fuel : Nat) (F : Option (Fence tokens last)) (f : Frame)
    (stop : Option Kind) (p q : Progress) (c d : Cursor) (e : Expr) (c' : Cursor) : Prop :=
  ∃ p' z, ComesTo tokens last stop p c e c' p' z ∧
    ((∀ g, F = some g → z.index ≤ g.left.index) → ∃ left q' z',
      (readers (extra + fuel)).expression stop q d =
        (readers (extra + left + 1)).expression stop q' z' ∧
      p'.Atop f q' ∧ Beside F z z')

/-- It does so whenever an expression is read. -/
def Arrives (extra fuel : Nat) (F : Option (Fence tokens last)) (f : Frame) (stop : Option Kind)
    (p q : Progress) (c d : Cursor) : Prop :=
  ∀ e c', (readers fuel).expression stop p c = .ok e c' →
    ArrivesWith extra fuel F f stop p q c d e c'

theorem ComesTo.not_isOpen {stop : Option Kind} {p p' : Progress} {e : Expr} {z : Cursor}
    (h : ComesTo tokens last stop p c e c' p' z) : p'.isOpen = false :=
  (endExpression_eq_ok_iff.mp h.result).1

/-- The loop comes to where it comes to after a turn, by which an operand was missing or a token was
read. -/
theorem ComesTo.of_turn {stop : Option Kind} {p p₁ p' : Progress} {e : Expr} {z : Cursor}
    (h : ComesTo tokens last stop p₁ c₁ e c' p' z) (hc : c.Reaches tokens last c₁)
    (hlt : c.index < c₁.index) (hat : p₁.isOpen = true ∨ ¬BehindTerminator tokens c₁) :
    ComesTo tokens last stop p c e c' p' z := by
  refine ⟨hc.trans h.reaches, .inr ⟨Nat.lt_of_lt_of_le hlt h.reaches.forward, ?_⟩, h.ends,
    h.result⟩
  rcases h.moved with ⟨rfl, rfl⟩ | ⟨-, hbehind⟩
  · refine hat.resolve_left fun hopen => ?_
    rw [h.not_isOpen] at hopen
    cases hopen
  · exact hbehind

namespace Arrives

variable {extra fuel : Nat} {F : Option (Fence tokens last)} {f : Frame} {stop : Option Kind}
  {p q p₁ q₁ : Progress} {e : Expr}

theorem of_turn (h : Arrives extra fuel F f stop p₁ q₁ c₁ d₁)
    (he : (readers fuel).expression stop p₁ c₁ = .ok e c')
    (hy : (readers (extra + fuel)).turn.expression stop q d =
      (readers (extra + fuel)).expression stop q₁ d₁)
    (hc : c.Reaches tokens last c₁) (hlt : c.index < c₁.index)
    (hat : p₁.isOpen = true ∨ ¬BehindTerminator tokens c₁) :
    ArrivesWith extra (fuel + 1) F f stop p q c d e c' := by
  obtain ⟨p', z, hz, hmirror⟩ := h e c' he
  refine ⟨p', z, hz.of_turn hc hlt hat, fun hbefore => ?_⟩
  obtain ⟨left, q', z', hrun, hq', hb⟩ := hmirror hbefore
  exact ⟨left, q', z', hy.trans hrun, hq', hb⟩

/-- A turn that goes past the fence need not be mirrored. -/
theorem of_late (h : Arrives extra fuel (none : Option (Fence tokens last)) f stop p₁ q₁ c₁ d₁)
    (he : (readers fuel).expression stop p₁ c₁ = .ok e c')
    (hc : c.Reaches tokens last c₁) (hlt : c.index < c₁.index)
    (hat : p₁.isOpen = true ∨ ¬BehindTerminator tokens c₁)
    (hlate : ¬∀ g, F = some g → c₁.index ≤ g.left.index) :
    ArrivesWith extra (fuel + 1) F f stop p q c d e c' := by
  obtain ⟨p', z, hz, -⟩ := h e c' he
  exact ⟨p', z, hz.of_turn hc hlt hat, fun hbefore => absurd
    (fun g hg => Nat.le_trans hz.reaches.forward (hbefore g hg)) hlate⟩

/-- What an expression that stops before the fence comes to on both sides. -/
theorem result (h : Arrives extra fuel F .empty stop p q c d) (hstop : IsEnd stop)
    (he : (readers fuel).expression stop p c = .ok e c') :
    c.Reaches tokens last c' ∧
      (Further c c' ∨ Progress.finish p.output p.pending = .ok e) ∧
      ((∀ g, F = some g → c'.index + 1 ≤ g.left.index) → ∃ e' d',
        (readers (extra + fuel)).expression stop q d = .ok e' d' ∧ SameExpr e e' ∧
          Beside F c' d') := by
  obtain ⟨p', z, hz, hmirror⟩ := h e c' he
  obtain ⟨hopen, hfinish, hwanted, rfl⟩ := endExpression_eq_ok_iff.mp hz.result
  have hend : z.kind = .terminator ∨ stop = some z.kind → z.kind ≠ .endOfFile := by
    rintro (hkind | hkind) heof
    · rw [heof] at hkind
      cases hkind
    · rw [heof] at hkind
      rcases hstop with rfl | rfl <;> cases hkind
  have hafter : z.Reaches tokens last (z.afterEnd stop) := by
    unfold Cursor.afterEnd
    split
    · next hkind => exact hz.reaches.within.next (hend hkind)
    · exact hz.reaches.within.reaches
  refine ⟨hz.reaches.trans hafter, ?_, fun hbefore => ?_⟩
  · rcases hz.moved with ⟨rfl, rfl⟩ | ⟨hfurther, -⟩
    · exact .inr hfinish
    · exact .inl (Nat.lt_of_lt_of_le hfurther hafter.forward)
  · have hle : ∀ g, F = some g → z.index < g.left.index := fun g hg =>
      Nat.lt_of_lt_of_le (Nat.lt_succ_of_le hafter.forward) (hbefore g hg)
    obtain ⟨left, q', z', hrun, hq', hb⟩ := hmirror fun g hg => Nat.le_of_lt (hle g hg)
    have hpq := hq'.withoutTokens
    rcases hb.level_or_fence hz.reaches.within with hlevel | ⟨g, hg, rfl, -⟩
    · obtain ⟨e', he', halike⟩ := Progress.finish_alike hpq hfinish
      have hopen' : q'.isOpen = false := (isOpen_congr hpq).symm.trans hopen
      refine ⟨e', z'.afterEnd stop, ?_, halike, ?_⟩
      · rw [hrun, readers_succ, Readers.expression_end _ (hlevel.kind ▸ hz.ends) fun hskip => ?_]
        · exact endExpression_eq_ok_iff.mpr ⟨hopen', he', hlevel.kind ▸ hwanted, rfl⟩
        · rw [hopen'] at hskip
          cases hskip.2
      · unfold Cursor.afterEnd
        rw [← hlevel.kind]
        split
        · next hkind => exact hlevel.next (hend hkind)
        · exact hb
    · exact absurd (hle g hg) (Nat.lt_irrefl _)

end Arrives

end FrontEnd.Grammar
