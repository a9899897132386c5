import FrontEnd.Proofs.Grammar.Arriving

/-!
# What is read up to a fence

The readers of expressions, conditionals, blocks and statements do the same on both sides of
a fence, as long as they stop before it: what they give does not depend on what comes after.
-/

namespace FrontEnd.Grammar

open Token (Kind Mark Keyword Shape)

variable {tokens : List Token} {last : Nat} {c d c' d' c₁ d₁ : Cursor}

/-! ## The readers -/

/-- Reads a statement that starts with a conditional. -/
def Readers.branching (r : Readers) (token : Nat) : Parse Statement := do
  match ← r.value none with
  | [.cond branch] => return .cond branch
  | value => return .eval token value

/-- Reads a loop, whose `while` has been read. -/
def Readers.loop (r : Readers) (token : Nat) : Parse Statement := do
  if (← get).kind = .mark .openCurly then
    discard advance
    return .loop token [.bool token true] (← r.block [])
  else
    let condition ← r.value (some (.mark .openCurly))
    return .loop token condition (← r.block [])

/-- What the readers give with some fuel they give on the other side of a fence, with `extra` fuel
more, if they stop before it. A block may stop at the fence. -/
structure Mirrored (tokens : List Token) (last extra fuel : Nat) : Prop where
  expression : ∀ {F : Option (Fence tokens last)} {stop} f {p q c d}, IsEnd stop →
    c.Within tokens last → p.Atop f q → Beside F c d → Arrives extra fuel F f stop p q c d
  conditional : ∀ {F : Option (Fence tokens last)} i j {c d}, c.Within tokens last → Beside F c d →
    Mirrors F SameConditional (BehindBlock tokens) 0 ((readers fuel).conditional i)
      ((readers (extra + fuel)).conditional j) c d
  block : ∀ {F : Option (Fence tokens last)} {done done' c d}, SameBlock done done' →
    c.Within tokens last → Beside F c d →
    Mirrors F SameBlock (BehindBlock tokens) 0 ((readers fuel).block done)
      ((readers (extra + fuel)).block done') c d
  statement : ∀ {F : Option (Fence tokens last)} {c d}, c.Within tokens last → Beside F c d →
    Mirrors F SameStatement Further 1 (readers fuel).statement (readers (extra + fuel)).statement
      c d

theorem not_behindTerminator_next (hc : c.Within tokens last) (hkind : c.kind ≠ .endOfFile)
    (hterm : c.kind ≠ .terminator) : ¬BehindTerminator tokens c.next := by
  rintro ⟨t, ht, hkind'⟩
  rw [hc.index_next hkind, Nat.add_sub_cancel, hc.inTokens.current] at ht
  cases ht
  exact hterm hkind'

theorem BehindBlock.not_behindTerminator (h : BehindBlock tokens c c') :
    ¬BehindTerminator tokens c' := by
  rintro ⟨t, ht, hkind⟩
  obtain ⟨u, hu, hkind'⟩ := h.closed
  rw [ht] at hu
  cases hu
  rw [hkind] at hkind'
  cases hkind'

theorem Beside.paren {F : Option (Fence tokens last)} (h : Beside F c d)
    (hc : c.Within tokens last) (hd : d.kind = .mark .openParen) : c.kind = .mark .openParen := by
  rcases h.level_or_fence hc with hlevel | ⟨f, -, rfl, rfl⟩
  · rw [hlevel.kind, hd]
  · exact f.paren hd

namespace Mirrored

variable {extra fuel : Nat} {F : Option (Fence tokens last)} {stop : Option Kind}

/-- What the loop comes to that is beside itself. -/
theorem expression_self (h : Mirrored tokens last extra fuel) {f : Frame} {p : Progress}
    (hstop : IsEnd stop) (hc : c.Within tokens last) :
    Arrives extra fuel (none : Option (Fence tokens last)) f stop p (p.onto f) c c :=
  h.expression f hstop hc rfl (.refl hc)

theorem expression_level_if (h : Mirrored tokens last extra fuel) {f : Frame} {p q : Progress}
    (hstop : IsEnd stop) (hpq : p.Atop f q) (hc : Level F c d)
    (hends : ¬endsExpression stop c.kind = true) (hif : c.current.shape = .keyword .ifKw)
    {e : Expr} (he : (readers fuel).turn.expression stop p c = .ok e c') :
    ArrivesWith extra (fuel + 1) F f stop p q c d e c' := by
  have hkind := kind_of_not_endsExpression hends
  have hnext := hc.within.next hkind
  obtain ⟨hwants, branch, c₁, hbranch⟩ := Readers.exists_of_expression_if _ hends hif he
  rw [Readers.expression_if _ hends hif hwants hbranch] at he
  obtain ⟨p₁, hp₁, he⟩ := Readers.exists_of_goOn _ he
  obtain ⟨hc₁, hblock, hmirror⟩ :=
    h.conditional c.index d.index hnext.within (hc.next hkind) branch c₁ hbranch
  have hreaches := hnext.trans hc₁
  have hlt : c.index < c₁.index :=
    Nat.lt_of_lt_of_le (hc.within.index_lt_next hkind) hc₁.forward
  by_cases hbefore : ∀ g, F = some g → c₁.index ≤ g.left.index
  · obtain ⟨branch', d₁, hbranch', hsame, hb₁⟩ := hmirror hbefore
    have hnode : (Node.cond branch).withoutTokens = (Node.cond branch').withoutTokens := by
      rw [Node.withoutTokens, Node.withoutTokens, hsame]
    obtain ⟨q₁, hq₁, hpq₁⟩ := hpq.operand hnode hp₁
    refine (h.expression f hstop hc₁.within hpq₁ hb₁).of_turn he ?_ hreaches hlt
      (.inr hblock.not_behindTerminator)
    rw [Readers.expression_if _ (hc.kind ▸ hends) (hc.shape ▸ hif) (hpq.wantsOperand ▸ hwants)
      hbranch', hq₁]
    rfl
  · exact (h.expression_self hstop hc₁.within).of_late he hreaches hlt
      (.inr hblock.not_behindTerminator) hbefore

theorem expression_level_call (h : Mirrored tokens last extra fuel) {f : Frame} {p q : Progress}
    (hstop : IsEnd stop) (hpq : p.Atop f q) (hc : Level F c d)
    (hends : ¬endsExpression stop c.kind = true) {path : List String}
    (hshape : c.current.shape = .identifier path) (hparen : c.nextKind = .mark .openParen)
    {e : Expr} (he : (readers fuel).turn.expression stop p c = .ok e c') :
    ArrivesWith extra (fuel + 1) F f stop p q c d e c' := by
  have hkind := kind_of_not_endsExpression hends
  have hnext := hc.within.next hkind
  rw [Readers.expression_call _ hends hshape hparen] at he
  obtain ⟨p₁, hp₁, he⟩ := Readers.exists_of_goOn _ he
  have hparen' : c.next.kind = .mark .openParen := c.kind_next.trans hparen
  have hkind' := Cursor.goesOn hparen' (by decide)
  have hreaches := hnext.trans (hnext.within.next hkind')
  have hlt := Nat.lt_trans (hc.within.index_lt_next hkind) (hnext.within.index_lt_next hkind')
  have hbehind := not_behindTerminator_next hnext.within hkind' (by rw [hparen']; decide)
  rcases (hc.next hkind).level_or_fence hnext.within with hlevel | ⟨g, rfl, hleft, -⟩
  · obtain ⟨q₁, hq₁, hpq₁⟩ := Progress.Atop.opening hpq
      (show (Pending.call c.index path (c.index + 1) 0).withoutTokens =
        (Pending.call d.index path (d.index + 1) 0).withoutTokens from rfl) hp₁
    refine (h.expression f hstop hreaches.within hpq₁ (hlevel.next hkind')).of_turn he ?_ hreaches
      hlt (.inr hbehind)
    rw [Readers.expression_call _ (hc.kind ▸ hends) (hc.shape ▸ hshape)
      (d.kind_next.symm.trans (hlevel.kind ▸ hparen')), hq₁]
    rfl
  · refine (h.expression_self hstop hreaches.within).of_late he hreaches hlt (.inr hbehind)
      fun hbefore => ?_
    have hle := hbefore g rfl
    have hlt' := hnext.within.index_lt_next hkind'
    rw [← hleft] at hle
    omega

theorem expression_level_feed (h : Mirrored tokens last extra fuel) {f : Frame} {p q : Progress}
    (hstop : IsEnd stop) (hpq : p.Atop f q) (hc : Level F c d)
    (hends : ¬endsExpression stop c.kind = true) (hif : c.current.shape ≠ .keyword .ifKw)
    (hcall : ∀ path, c.current.shape = .identifier path → c.nextKind ≠ .mark .openParen)
    {e : Expr} (he : (readers fuel).turn.expression stop p c = .ok e c') :
    ArrivesWith extra (fuel + 1) F f stop p q c d e c' := by
  have hkind := kind_of_not_endsExpression hends
  have hnext := hc.within.next hkind
  have hcall' : ∀ path, d.current.shape = .identifier path → d.nextKind ≠ .mark .openParen := by
    intro path hshape hparen
    refine hcall path (hc.shape.trans hshape) ?_
    rw [← Cursor.kind_next]
    exact (hc.next hkind).paren hnext.within (d.kind_next.trans hparen)
  rw [Readers.expression_feed _ hends hif hcall] at he
  obtain ⟨p₁, hp₁, he⟩ := Readers.exists_of_goOn _ he
  obtain ⟨q₁, hq₁, hpq₁⟩ := hpq.feed d.index hp₁
  refine (h.expression f hstop hnext.within hpq₁ (hc.next hkind)).of_turn he ?_ hnext
    (hc.within.index_lt_next hkind) (.inr (not_behindTerminator_next hc.within hkind ?_))
  · rw [Readers.expression_feed _ (hc.kind ▸ hends) (hc.shape ▸ hif) hcall', ← hc.shape, hq₁]
    rfl
  · exact ne_terminator_of_endsExpression (Bool.eq_false_iff.mpr hends)

theorem expression_level (h : Mirrored tokens last extra fuel) {f : Frame} {p q : Progress}
    (hstop : IsEnd stop) (hpq : p.Atop f q) (hc : Level F c d) :
    Arrives extra (fuel + 1) F f stop p q c d := by
  intro e c' he
  rw [readers_succ] at he
  by_cases hskip : c.kind = .terminator ∧ p.isOpen = true
  · have hend := Cursor.goesOn hskip.1 (by decide)
    have hnext := hc.within.next hend
    rw [(readers fuel).expression_skip stop hskip.1 hskip.2] at he
    exact (h.expression f hstop hnext.within hpq (hc.next hend)).of_turn he
      ((readers (extra + fuel)).expression_skip stop (hc.kind ▸ hskip.1) (hpq.isOpen hskip.2))
      hnext (hc.within.index_lt_next hend) (.inl hskip.2)
  by_cases hends : endsExpression stop c.kind = true
  · rw [(readers fuel).expression_end hends hskip] at he
    exact ⟨p, c, ⟨hc.within.reaches, .inl ⟨rfl, rfl⟩, hends, he⟩,
      fun _ => ⟨fuel, q, d, rfl, hpq, hc.beside⟩⟩
  by_cases hif : c.current.shape = .keyword .ifKw
  · exact h.expression_level_if hstop hpq hc hends hif he
  by_cases hcall : ∃ path, c.current.shape = .identifier path ∧ c.nextKind = .mark .openParen
  · obtain ⟨path, hshape, hparen⟩ := hcall
    exact h.expression_level_call hstop hpq hc hends hshape hparen he
  · exact h.expression_level_feed hstop hpq hc hends hif
      (fun path hshape hparen => hcall ⟨path, hshape, hparen⟩) he

theorem expression_turn (h : Mirrored tokens last extra fuel) {f : Frame} {p q : Progress}
    (hstop : IsEnd stop) (hc : c.Within tokens last) (hpq : p.Atop f q) (hb : Beside F c d) :
    Arrives extra (fuel + 1) F f stop p q c d := by
  rcases hb.level_or_fence hc with hlevel | ⟨g, rfl, rfl, rfl⟩
  · exact h.expression_level hstop hpq hlevel
  · -- At the fence the loop ends at once, or goes on behind it.
    intro e c' he
    obtain ⟨p', z, hz, -⟩ := h.expression_level (q := p.onto f) hstop rfl (.refl hc) e c' he
    refine ⟨p', z, hz, fun hbefore => ?_⟩
    rcases hz.moved with ⟨rfl, rfl⟩ | ⟨hfurther, -⟩
    · exact ⟨fuel, q, g.right, rfl, hpq, hb⟩
    · exact absurd (hbefore g rfl) (Nat.not_le_of_lt hfurther)

theorem expression_start (h : Mirrored tokens last extra fuel) (hstop : IsEnd stop)
    (hc : c.Within tokens last) (hb : Beside F c d) :
    Arrives extra fuel F .empty stop .start .start c d :=
  h.expression .empty hstop hc (congrArg Progress.withoutTokens (Progress.onto_empty _)) hb

/-- What may be empty. -/
theorem emptyable (h : Mirrored tokens last extra fuel) (hstop : IsEnd stop)
    (hc : c.Within tokens last) (hb : Beside F c d) :
    Mirrors F SameExpr Anywhere 1 ((readers fuel).expression stop .start)
      ((readers (extra + fuel)).expression stop .start) c d := by
  intro e c' he
  obtain ⟨hreaches, -, hmirror⟩ := (h.expression_start hstop hc hb).result hstop he
  exact ⟨hreaches, trivial, hmirror⟩

theorem value (h : Mirrored tokens last extra fuel) (hstop : IsEnd stop)
    (hc : c.Within tokens last) (hb : Beside F c d) :
    Mirrors F SameExpr Further 1 ((readers fuel).value stop)
      ((readers (extra + fuel)).value stop) c d := by
  intro e c' he
  obtain ⟨he, hne⟩ := nonEmpty_eq_ok.mp he
  obtain ⟨hreaches, hfurther, hmirror⟩ := (h.expression_start hstop hc hb).result hstop he
  refine ⟨hreaches, hfurther.resolve_right fun hfinish => ?_, fun hbefore => ?_⟩
  · cases hfinish
    exact hne rfl
  · obtain ⟨e', d', he', hsame, hb'⟩ := hmirror hbefore
    exact ⟨e', d', nonEmpty_eq_ok.mpr ⟨he', Expr.ne_nil_of_withoutTokens hsame.symm hne⟩, hsame,
      hb'⟩

theorem value_anywhere (h : Mirrored tokens last extra fuel) (hstop : IsEnd stop)
    (hc : c.Within tokens last) (hb : Beside F c d) :
    Mirrors F SameExpr Anywhere 1 ((readers fuel).value stop)
      ((readers (extra + fuel)).value stop) c d :=
  (h.value hstop hc hb).mono hc fun _ _ _ => trivial

end Mirrored

/-! ## Conditionals and blocks -/

namespace Readers

variable (r : Readers)

/-- Reads the other case of a conditional, behind its `else`. -/
def otherCase (token : Nat) (condition : Expr) (onTrue : Block) : Parse Conditional := do
  match (← get).kind with
  | .keyword .ifKw =>
    let index ← advance
    let branch ← r.conditional index
    return .ofBlocks token condition onTrue [.cond branch]
  | .mark .openCurly =>
    discard advance
    let onFalse ← r.block []
    return .ofBlocks token condition onTrue onFalse
  | _ => failExpected "expected `if` or `\x7b`"

/-- Reads the other case of a conditional, if there is one. -/
def otherwise (token : Nat) (condition : Expr) (onTrue : Block) : Parse Conditional := do
  let c := (← get).skipTerminators
  if c.kind ≠ .keyword .elseKw then return .ofBlocks token condition onTrue []
  set c.next
  r.otherCase token condition onTrue

/-- Reads the rest of a block, from a token on that is no terminator. -/
def statements (done : List Statement) : Parse Block := do
  match (← get).kind with
  | .mark .closeCurly =>
    discard advance
    return done.reverse
  | .endOfFile => failUnexpected
  | _ =>
    let s ← r.statement
    r.block (s :: done)

theorem conditional_turn (token : Nat) : r.turn.conditional token = (do
    let condition ← r.value (some (.mark .openCurly))
    let onTrue ← r.block []
    r.otherwise token condition onTrue) := rfl

theorem block_turn (done : List Statement) : r.turn.block done = (do
    skipTerminators
    r.statements done) := rfl

end Readers

/-- Here, or behind the end of a block that is further on. -/
def HereOrBehindBlock (tokens : List Token) (c c' : Cursor) : Prop :=
  c' = c ∨ BehindBlock tokens c c'

theorem BehindBlock.of_le (hle : c.index ≤ c₁.index) (h : BehindBlock tokens c₁ c') :
    BehindBlock tokens c c' :=
  ⟨Nat.lt_of_le_of_lt hle h.further, h.closed⟩

theorem sameConditional_ofBlocks (i j : Nat) {condition condition' : Expr}
    {onTrue onTrue' onFalse onFalse' : Block} (hcondition : SameExpr condition condition')
    (honTrue : SameBlock onTrue onTrue') (honFalse : SameBlock onFalse onFalse') :
    SameConditional (.ofBlocks i condition onTrue onFalse)
      (.ofBlocks j condition' onTrue' onFalse') := by
  simp only [SameConditional, Conditional.ofBlocks, Conditional.withoutTokens, hcondition, honTrue,
    honFalse]

namespace Mirrored

variable {extra fuel : Nat} {F : Option (Fence tokens last)} {stop : Option Kind}

theorem otherCase (h : Mirrored tokens last extra fuel) (i j : Nat) {condition condition' : Expr}
    {onTrue onTrue' : Block} (hcondition : SameExpr condition condition')
    (honTrue : SameBlock onTrue onTrue') (hc : c.Within tokens last) (hb : Beside F c d) :
    Mirrors F SameConditional (BehindBlock tokens) 0
      ((readers fuel).otherCase i condition onTrue)
      ((readers (extra + fuel)).otherCase j condition' onTrue') c d := by
  refine .of_level hc hb (fun _ _ => BehindBlock.further) fun h' => .get_bind hc ?_
  rw [← h'.kind]
  split
  · next hif =>
    have hend := Cursor.goesOn hif (by decide)
    refine .advance_bind hc hend (fun _ _ => .of_le c.index_le_next)
      ((h.conditional _ _ (hc.next hend).within (h'.next hend)).map fun b b' hbranch => ?_)
    exact sameConditional_ofBlocks i j hcondition honTrue (.cons (sameStatement_cond hbranch) rfl)
  · next hcurly =>
    have hend := Cursor.goesOn hcurly (by decide)
    exact .skip_bind hc hend (fun _ _ => .of_le c.index_le_next)
      ((h.block rfl (hc.next hend).within (h'.next hend)).map fun _ _ =>
        sameConditional_ofBlocks i j hcondition honTrue)
  · exact .of_error rfl

theorem otherwise (h : Mirrored tokens last extra fuel) (i j : Nat) {condition condition' : Expr}
    {onTrue onTrue' : Block} (hcondition : SameExpr condition condition')
    (honTrue : SameBlock onTrue onTrue') (hc : c.Within tokens last) (hb : Beside F c d) :
    Mirrors F SameConditional (HereOrBehindBlock tokens) 0
      ((readers fuel).otherwise i condition onTrue)
      ((readers (extra + fuel)).otherwise j condition' onTrue') c d := by
  have hnone : SameConditional (.ofBlocks i condition onTrue [])
      (.ofBlocks j condition' onTrue' []) :=
    sameConditional_ofBlocks i j hcondition honTrue rfl
  have hskipped := hc.skipTerminators
  refine .get_bind hc ?_
  dsimp only
  rcases hb.skipTerminators hc with hlevel | ⟨f, hF, hleft, hright⟩
  · rw [← hlevel.kind]
    split
    · exact .pure hc hb (.inl rfl) hnone
    · next helse =>
      have hend := Cursor.goesOn (not_not.mp helse) (by decide)
      have hnext := hskipped.trans (hlevel.within.next hend)
      exact .of_reaches hnext rfl rfl (fun _ _ hblock => .inr (hblock.of_le hnext.forward))
        (h.otherCase i j hcondition honTrue hnext.within (hlevel.next hend))
  · by_cases helse : c.skipTerminators.kind = .keyword .elseKw
    · -- What is read goes on behind the fence.
      have hend := Cursor.goesOn helse (by decide)
      have hnext := hskipped.trans (hskipped.within.next hend)
      rw [if_neg (not_not.mpr helse)]
      refine .of_late hnext rfl (fun c' hle hblock => ?_)
        (h.otherCase i i rfl rfl hnext.within (.refl hnext.within))
      refine ⟨.inr (hblock.of_le hnext.forward), f, hF, ?_⟩
      have hlt := hskipped.within.index_lt_next hend
      have hle' := f.within.skipTerminators.forward
      rw [← hleft] at hle'
      omega
    · have helse' : d.skipTerminators.kind ≠ .keyword .elseKw := fun hkind =>
        helse (hleft ▸ f.orElse (hright ▸ hkind))
      rw [if_pos helse, if_pos helse']
      exact .pure hc hb (.inl rfl) hnone

theorem conditional_turn (h : Mirrored tokens last extra fuel) (i j : Nat)
    (hc : c.Within tokens last) (hb : Beside F c d) :
    Mirrors F SameConditional (BehindBlock tokens) 0 ((readers (fuel + 1)).conditional i)
      ((readers (extra + (fuel + 1))).conditional j) c d := by
  rw [readers_succ, ← Nat.add_assoc, readers_succ, Readers.conditional_turn,
    Readers.conditional_turn]
  refine (h.value_anywhere (.inr rfl) hc hb).bind (fun _ => rfl) (fun c₁ c₂ hle _ _ hblock =>
    ⟨.of_le hle hblock, hblock.further⟩) fun hc₁ hcondition hb₁ => ?_
  refine (h.block rfl hc₁.within hb₁).bind (fun _ => rfl) (fun c₁ c₂ hle hblock hle' hhere =>
    ⟨?_, hle'⟩) fun hc₂ honTrue hb₂ => h.otherwise i j hcondition honTrue hc₂.within hb₂
  rcases hhere with rfl | hblock'
  · exact hblock
  · exact .of_le hle hblock'

theorem statements (h : Mirrored tokens last extra fuel) {done done' : List Statement}
    (hdone : SameBlock done done') (hc : c.Within tokens last) (hlevel : Level F c d) :
    Mirrors F SameBlock (BehindBlock tokens) 0 ((readers fuel).statements done)
      ((readers (extra + fuel)).statements done') c d := by
  refine .get_bind hc ?_
  rw [← hlevel.kind]
  split
  · next hclose =>
    have hend := Cursor.goesOn hclose (by decide)
    have hnext := hc.next hend
    refine .skip_bind (P := fun c₁ c' => c' = c₁) hc hend (fun c' _ heq => ?_)
      (.pure hnext.within (hlevel.next hend) rfl hdone.reverse)
    subst heq
    refine ⟨hc.index_lt_next hend, c.current, ?_, hclose⟩
    rw [hc.index_next hend, Nat.add_sub_cancel, hc.inTokens.current]
  · exact .of_error rfl
  · exact (h.statement hc hlevel.beside).bind (fun _ => rfl)
      (fun c₁ c₂ hle _ _ hblock => ⟨.of_le hle hblock, hblock.further⟩)
      fun hc₁ hs hb₁ => h.block (.cons hs hdone) hc₁.within hb₁

theorem block_turn (h : Mirrored tokens last extra fuel) {done done' : List Statement}
    (hdone : SameBlock done done') (hc : c.Within tokens last) (hb : Beside F c d) :
    Mirrors F SameBlock (BehindBlock tokens) 0 ((readers (fuel + 1)).block done)
      ((readers (extra + (fuel + 1))).block done') c d := by
  rw [readers_succ, ← Nat.add_assoc, readers_succ, Readers.block_turn, Readers.block_turn]
  have hskipped := hc.skipTerminators
  rcases hb.skipTerminators hc with hlevel | ⟨f, hF, hleft, -⟩
  · exact .of_reaches hskipped rfl rfl (fun _ _ => .of_le hskipped.forward)
      (h.statements hdone hskipped.within hlevel)
  · refine .of_late hskipped rfl (fun c' _ hblock => ⟨hblock.of_le hskipped.forward, f, hF, ?_⟩)
      (h.statements hdone hskipped.within (.refl hskipped.within))
    have hlt : c.skipTerminators.index < c'.index := hblock.further
    have hle := f.within.skipTerminators.forward
    rw [← hleft] at hle
    omega

/-! ## Statements -/

/-- A statement that goes on up to the end of its line. -/
theorem end_statement {s s' : Statement} (hs : SameStatement s s') (hc : c.Within tokens last)
    (hb : Beside F c d) :
    Mirrors F SameStatement Anywhere 1 (do endStatement; return s) (do endStatement; return s')
      c d :=
  (mirrors_endStatement hc hb).map fun _ _ _ => hs

theorem evaluation (h : Mirrored tokens last extra fuel) (i j : Nat) (hc : c.Within tokens last)
    (hb : Beside F c d) :
    Mirrors F SameStatement Further 1 ((readers fuel).evaluation i)
      ((readers (extra + fuel)).evaluation j) c d :=
  (h.value (.inl rfl) hc hb).map fun _ _ => sameStatement_eval i j

theorem declaration (h : Mirrored tokens last extra fuel) (hc : c.Within tokens last)
    (hb : Beside F c d) :
    Mirrors F SameStatement Further 1 (readers fuel).declaration
      (readers (extra + fuel)).declaration c d := by
  refine (mirrors_simpleIdentifier hc hb).bind (S := Anywhere) (fun _ => rfl)
    (fun _ _ _ hfurther hle _ => ⟨Nat.lt_of_lt_of_le hfurther hle, Nat.succ_le_succ hle⟩)
    fun {F₁ a b c₁ d₁} hc₁ hname hb₁ => ?_
  obtain ⟨i, name⟩ := a
  obtain ⟨j, name'⟩ := b
  obtain rfl : name = name' := hname
  have hdeclare : ∀ type {e e'}, SameExpr e e' →
      SameStatement (.declare i name type e none) (.declare j name type e' none) := by
    intro type e e' he
    simp only [SameStatement, Statement.withoutTokens, he]
  refine (mirrors_expect hc₁.within hb₁ (.mark .colon) (by decide)).discard_bind_before
    fun hc₂ hb₂ => .of_level_before hc₂.within hb₂ fun h₂ => .get_bind hc₂.within ?_
  rw [← h₂.kind]
  split
  · next hassign =>
    have hend := Cursor.goesOn hassign (by decide)
    exact .skip_bind_before hc₂.within hend
      ((h.value_anywhere (.inl rfl) (hc₂.within.next hend).within (h₂.next hend)).map
        fun _ _ => hdeclare none)
  · refine (mirrors_typeName hc₂.within h₂.beside).bind_before (fun _ => rfl)
      fun {F₃ type type' c₃ d₃} hc₃ htype hb₃ => ?_
    subst htype
    refine .of_level_before hc₃.within hb₃ fun h₃ => .get_bind hc₃.within ?_
    rw [← h₃.kind]
    split
    · next hassign =>
      have hend := Cursor.goesOn hassign (by decide)
      exact .skip_bind_before hc₃.within hend
        ((h.value_anywhere (.inl rfl) (hc₃.within.next hend).within (h₃.next hend)).map
          fun _ _ => hdeclare (some type))
    · exact end_statement (hdeclare (some type) rfl) hc₃.within h₃.beside
  · exact end_statement (hdeclare none rfl) hc₂.within h₂.beside
  · exact end_statement (hdeclare none rfl) hc₂.within h₂.beside
  · exact end_statement (hdeclare none rfl) hc₂.within h₂.beside
  · exact .of_error rfl

theorem branching (h : Mirrored tokens last extra fuel) (i j : Nat) (hc : c.Within tokens last)
    (hb : Beside F c d) :
    Mirrors F SameStatement Further 1 ((readers fuel).branching i)
      ((readers (extra + fuel)).branching j) c d := by
  refine (h.value (.inl rfl) hc hb).bind (S := Anywhere) (fun _ => rfl)
    (fun _ _ _ hfurther hle _ => ⟨Nat.lt_of_lt_of_le hfurther hle, Nat.succ_le_succ hle⟩)
    fun hc₁ he hb₁ => ?_
  split
  · next branch =>
    obtain ⟨branch', rfl, hbranch⟩ := Expr.eq_cond_of_withoutTokens he.symm
    exact .pure hc₁.within hb₁ trivial (sameStatement_cond hbranch.symm)
  · next hlone =>
    split
    · next branch' =>
      obtain ⟨branch, rfl, -⟩ := Expr.eq_cond_of_withoutTokens he
      exact absurd rfl (hlone branch)
    · exact .pure hc₁.within hb₁ trivial (sameStatement_eval _ _ he)

theorem loop (h : Mirrored tokens last extra fuel) (i j : Nat) (hc : c.Within tokens last)
    (hb : Beside F c d) :
    Mirrors F SameStatement Anywhere 1 ((readers fuel).loop i) ((readers (extra + fuel)).loop j)
      c d := by
  refine .of_level_before hc hb fun hnext => .get_bind hnext.within ?_
  rw [← hnext.kind]
  split
  · next hcurly =>
    have hend := Cursor.goesOn hcurly (by decide)
    refine .skip_bind_before hnext.within hend
      (((h.block rfl (hnext.within.next hend).within (hnext.next hend)).before
        fun _ _ => trivial).map fun b b' hb => ?_)
    simp only [SameStatement, Statement.withoutTokens, Expr.withoutTokens_cons, Node.withoutTokens,
      Expr.withoutTokens_nil, hb]
  · refine (h.value_anywhere (.inr rfl) hnext.within hnext.beside).bind_before (fun _ => rfl)
      fun hc₁ he hb₁ =>
        ((h.block rfl hc₁.within hb₁).before fun _ _ => trivial).map fun b b' hb => ?_
    simp only [SameStatement, Statement.withoutTokens, he, hb]

/-- A statement at a token that is not at the fence, nor before it if it is a name. -/
theorem statement_ahead (h : Mirrored tokens last extra fuel) (hc : Level F c d)
    (hahead : c.kind = .identifier → Level F c.next d.next) :
    Mirrors F SameStatement Further 1 (readers fuel).turn.statement
      (readers (extra + fuel)).turn.statement c d := by
  refine .get_bind hc.within ?_
  dsimp only
  rw [← hc.kind]
  split
  · next hname =>
    have hnext := hahead hname
    have hend := Cursor.goesOn hname (by decide)
    have hpath : c.current.path = d.current.path := by
      unfold Token.path
      rw [hc.shape]
    have hassign : ∀ {e e'}, SameExpr e e' → SameStatement
        (.assign c.index ⟨c.index, c.current.path, none⟩ e)
        (.assign d.index ⟨d.index, d.current.path, none⟩ e') := by
      intro e e' he
      simp only [SameStatement, Statement.withoutTokens, he, hpath]
    have hnextKind : c.nextKind = d.nextKind := by
      rw [← Cursor.kind_next, ← Cursor.kind_next, hnext.kind]
    rw [← hnextKind]
    split
    · exact h.declaration hc.within hc.beside
    · next hmark =>
      have hend' := Cursor.goesOn (c.kind_next.trans hmark) (by decide)
      exact .skip_bind_further hc.within hend (.skip_bind_before hnext.within hend'
        ((h.value_anywhere (.inl rfl) (hnext.within.next hend').within (hnext.next hend')).map
          fun _ _ => hassign))
    · split
      · next o ho =>
        have hend' : c.next.kind ≠ .endOfFile := by
          rw [Cursor.kind_next]
          split at ho
          · next m hm =>
            rw [hm]
            nofun
          · cases ho
        refine .skip_bind_further hc.within hend (.advance_bind (P := Anywhere) hnext.within hend'
          (fun _ _ => id) ((h.value_anywhere (.inl rfl) (hnext.within.next hend').within
            (hnext.next hend')).map fun e e' he => hassign ?_))
        simp only [SameExpr, List.cons_append, Expr.withoutTokens_cons, Expr.withoutTokens_append,
          Node.withoutTokens, hpath, he]
      · exact h.evaluation _ _ hc.within hc.beside
  · next hreturn =>
    have hend := Cursor.goesOn hreturn (by decide)
    refine .skip_bind_further hc.within hend
      ((h.emptyable (.inl rfl) (hc.within.next hend).within (hc.next hend)).map fun e e' he => ?_)
    simp only [SameStatement, Statement.withoutTokens, he]
  · exact h.branching _ _ hc.within hc.beside
  · next hwhile =>
    have hend := Cursor.goesOn hwhile (by decide)
    exact .skip_bind_further hc.within hend
      (h.loop _ _ (hc.within.next hend).within (hc.next hend))
  · next hbreak =>
    have hend := Cursor.goesOn hbreak (by decide)
    refine .skip_bind_further hc.within hend
      ((mirrors_exitAmount (hc.within.next hend).within (hc.next hend)).bind_before (fun _ => rfl)
        fun hc₁ hamount hb₁ => end_statement ?_ hc₁.within hb₁)
    simp only [SameStatement, Statement.withoutTokens, hamount]
  · next hcontinue =>
    have hend := Cursor.goesOn hcontinue (by decide)
    refine .skip_bind_further hc.within hend
      (end_statement ?_ (hc.within.next hend).within (hc.next hend))
    simp only [SameStatement, Statement.withoutTokens]
  · exact h.evaluation _ _ hc.within hc.beside

theorem statement_turn (h : Mirrored tokens last extra fuel) (hc : c.Within tokens last)
    (hb : Beside F c d) :
    Mirrors F SameStatement Further 1 (readers (fuel + 1)).statement
      (readers (extra + (fuel + 1))).statement c d := by
  rw [readers_succ, ← Nat.add_assoc, readers_succ]
  refine .of_level_before hc hb fun {F' d'} hlevel => ?_
  by_cases hname : c.kind = .identifier
  · have hend := Cursor.goesOn hname (by decide)
    have hnext := hc.next hend
    rcases (hlevel.next hend).level_or_fence hnext.within with hahead | ⟨f, hF, hleft, -⟩
    · exact h.statement_ahead hlevel fun _ => hahead
    · refine .of_late hc.reaches rfl (fun c' _ hfurther => ⟨hfurther, f, hF, ?_⟩)
        (h.statement_ahead (.refl hc) fun _ => .refl hnext.within)
      have hlt : c.index < c'.index := hfurther
      rw [← hleft, hc.index_next hend]
      omega
  · exact h.statement_ahead hlevel fun hkind => absurd hkind hname

theorem succ (h : Mirrored tokens last extra fuel) : Mirrored tokens last extra (fuel + 1) where
  expression _ _ _ _ _ hstop hc := h.expression_turn hstop hc
  conditional i j _ _ hc hb := h.conditional_turn i j hc hb
  block hdone hc hb := h.block_turn hdone hc hb
  statement hc hb := h.statement_turn hc hb

end Mirrored

/-- **What is read does not depend on what stands behind a fence.** -/
theorem mirrored (tokens : List Token) (last extra fuel : Nat) :
    Mirrored tokens last extra fuel := by
  induction fuel with
  | zero =>
    constructor
    · intro F stop f p q c d _ _ _ _ e c' he
      cases he
    · intro F i j c d _ _ b c' hb
      cases hb
    · intro F done done' c d _ _ _ b c' hb
      cases hb
    · intro F c d _ _ s c' hs
      cases hs
  | succ fuel ih => exact ih.succ

end FrontEnd.Grammar
