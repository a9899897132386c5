import FrontEnd.Proofs.ControlFlow.Hoisting

/-!
# Flat programs do the same

The statements that are written for a statement follow it, and so for blocks and
conditionals. A store for the value of a conditional is always reached, because no value
is missing, unless the block has been left before; and a loop with a condition that is
evaluated inside its body is left at the same place.
-/

namespace FrontEnd.ControlFlow

open Emit Meaning

variable {α σ β γ : Type} (I : Interpretation α σ) (turns : Nat)

/-- What is written in front of an expression, and then what is left of it, do what it did. -/
theorem NodesFollow.expr {e e' : Expr} (hn : NodesFollow I turns e) {depth m m' lo : Nat}
    {pre : Block} (h : (hoistFrom depth [] e).run m = ⟨.ok e', pre, m'⟩) (hlo : lo ≤ m) (s : σ)
    (t : Temporaries α) (last : Value α) :
    Follows lo t (fun v w _ => v = w) Never (I.expr .strict turns e s)
      ((do
        let _ ← (withTemporaries I).blockFrom .strict turns last pre
        (withTemporaries I).expr .strict turns e') (s, t)) := by
  by_cases hc : e.IsComplete
  · obtain ⟨⟨hc', -⟩, hf⟩ := hn h (List.forall_mem_nil _) hc hlo
    have hv := hf s t last
    rw [← Interpretation.onStack_eq_expr _ _ hc, ← Interpretation.onStack_eq_expr _ _ hc',
      Interpretation.onStack, Interpretation.onStack, ← bind_assoc]
    have hnil : given t ((withTemporaries I).values turns [] (nodesOnStack [])) =
        (pure [] : Run α σ (List (Value α))) := rfl
    rw [hnil, pure_bind] at hv
    refine hv.bind ?_
    rintro vs _ s' t' hk rfl
    rcases vs with _ | ⟨v, _ | ⟨w, vs⟩⟩
    · exact .fault s' _
    · exact .ok s' hk rfl
    · exact .fault s' _
  · rw [Interpretation.expr_of_not_isComplete _ _ _ hc]
    exact .fault s _

/-- The same for an expression that may be left out. -/
theorem NodesFollow.optional {e e' : Expr} (hn : NodesFollow I turns e) {depth m m' lo : Nat}
    {pre : Block} (h : (hoistFrom depth [] e).run m = ⟨.ok e', pre, m'⟩) (hlo : lo ≤ m) (s : σ)
    (t : Temporaries α) (last : Value α) :
    Follows lo t (fun v w _ => v = w) Never
      (Meaning.optional e (I.expr .strict turns e) s)
      ((do
        let _ ← (withTemporaries I).blockFrom .strict turns last pre
        Meaning.optional e' ((withTemporaries I).expr .strict turns e')) (s, t)) := by
  by_cases he : e = []
  · subst he
    rw [hoistFrom] at h
    cases h
    exact .ok s (Keeps.refl lo t) rfl
  · have hne : ¬ e.isEmpty = true := by simpa using he
    rw [Meaning.optional, if_neg hne]
    by_cases hc : e.IsComplete
    · obtain ⟨⟨hc', -⟩, -⟩ := hn h (List.forall_mem_nil _) hc hlo
      rw [Meaning.optional, if_neg (by simpa using hc'.ne_nil), map_eq_pure_bind,
        map_eq_pure_bind, ← bind_assoc]
      refine (hn.expr I turns h hlo s t last).bind ?_
      rintro v _ s' t' hk rfl
      exact .ok s' hk rfl
    · rw [Interpretation.expr_of_not_isComplete _ _ _ hc]
      exact .fault s _

/-- A statement with a hoisted expression comes after what is written in front of it. -/
theorem run_emit_hoist_eq_ok {S : Expr → Statement} {depth m m' : Nat} {e : Expr} {pre : Block}
    (h : (do emit (S (← hoistFrom depth [] e)) : Emit Unit).run m = ⟨.ok (), pre, m'⟩) :
    ∃ e' before, (hoistFrom depth [] e).run m = ⟨.ok e', before, m'⟩ ∧ pre = before ++ [S e'] := by
  obtain ⟨e', before, m₁, _, h₁, h₂, rfl⟩ := run_bind_eq_ok h
  cases h₂
  exact ⟨e', before, h₁, rfl⟩

/-- A statement follows another one if its expression, with what is written in front of it, does,
and if it does the same with the value. -/
theorem follows_emit {x : Run α σ β} {y : Run α (σ × Temporaries α) β} {f : β → Run α σ γ}
    {g : β → Run α (σ × Temporaries α) (Value α)} {S : Statement} {before : Block} {lo : Nat}
    {post : γ → Value α → Temporaries α → Prop} {early : γ → Ending α → Prop} {s : σ}
    {t : Temporaries α} {last : Value α}
    (hx : Follows lo t (fun v w _ => v = w) Never (x s)
      ((do
        let _ ← (withTemporaries I).blockFrom .strict turns last before
        y) (s, t)))
    (hS : (withTemporaries I).statement .strict turns S = y >>= g)
    (hg : ∀ v s' t', Keeps lo t t' → Follows lo t' post early (f v s') (g v (s', t'))) :
    Follows lo t post early ((x >>= f) s)
      ((withTemporaries I).blockFrom .strict turns last (before ++ [S]) (s, t)) := by
  rw [Interpretation.blockFrom_append]
  simp only [Interpretation.blockFrom_singleton, hS]
  rw [← bind_assoc]
  refine hx.bind ?_
  rintro v _ s' t' hk rfl
  exact (hg v s' t' hk).since (Nat.le_refl lo) hk

/-- What is written for a statement follows it. -/
def StatementFollows (s : Statement) : Prop :=
  ∀ token ⦃depth tail m m' pre lo⦄, (flattenStatement depth tail s).run m = ⟨.ok (), pre, m'⟩ →
    IsSource s.paths → lo ≤ m → tail.From lo → tail.Fits (statementGap? token s) →
    ∀ st t last,
      Follows lo t (fun v _ t' => tail.Holds v t') tail.Leaves (I.statement .strict turns s st)
        ((withTemporaries I).blockFrom .strict turns last pre (st, t))

/-- What is written for a block follows it. -/
def BlockFollows (b : Block) : Prop :=
  ∀ token ⦃depth tail m m' pre lo⦄, (flattenBlock depth tail b).run m = ⟨.ok (), pre, m'⟩ →
    IsSource (Block.paths b) → lo ≤ m → tail.From lo → tail.Fits (blockGap? token b) →
    ∀ st t last last',
      Follows lo t (fun v _ t' => tail.Holds v t') tail.Leaves
        (I.blockFrom .strict turns last b st)
        ((withTemporaries I).blockFrom .strict turns last' pre (st, t))

namespace Tail

variable {tail : Tail}

/-- Where a value is missing, the tail stores nothing. -/
theorem Fits.holds {gap : Nat} (h : tail.Fits (some gap)) (v : Value α) (t : Temporaries α) :
    tail.Holds v t := fun temp ht => nomatch h temp ht

theorem holds_drop (v : Value α) (t : Temporaries α) : drop.Holds v t := nofun

theorem leaves_drop {v : Value α} {e : Ending α} (h : drop.Leaves v e) : False := nomatch h.1

theorem from_drop (first : Nat) : drop.From first := nofun

theorem fits_drop (gap : Option Nat) : drop.Fits gap := nofun

end Tail

/-- A statement whose value is not that of the block follows as it would with no value. -/
theorem follows_of_drop {tail : Tail} {gap lo : Nat} {t : Temporaries α}
    (hfit : tail.Fits (some gap)) {r : EStateM.Result (Ending α) σ (Value α)}
    {r' : EStateM.Result (Ending α) (σ × Temporaries α) (Value α)}
    (h : Follows lo t (fun _ _ _ => True) Never r r') :
    Follows lo t (fun v _ t' => tail.Holds v t') tail.Leaves r r' :=
  h.imp (fun v _ t' _ => hfit.holds v t') fun _ _ he => he.elim

/-- A variable of a source is written in the store. -/
theorem write_of_source {path : List String} (h : temporary? path = none) (v : Value α) (s : σ)
    (t : Temporaries α) :
    (withTemporaries I).write path v (s, t) = (I.write path v s, t) := by
  simp only [withTemporaries, h]

/-- A variable of a source is declared in the store. -/
theorem declare_of_source {name : String} (h : temporary? [name] = none)
    (type : Option ValueType) (v : Option (Value α)) (s : σ) (t : Temporaries α) :
    (withTemporaries I).declare name type v (s, t) = (I.declare name type v s, t) := by
  simp only [withTemporaries, h]

theorem statementFollows_declare {token : Nat} {name : String} {type : Option ValueType}
    {value : Expr} {slot : Option Nat}
    (hc : ∀ c, .cond c ∈ value → ConditionalFollows I turns c) :
    StatementFollows I turns (.declare token name type value slot) := by
  intro _ depth tail m m' pre lo h hs hlo _ hfit s t last
  rw [IsSource, Statement.paths, List.forall_mem_cons] at hs
  have hn := nodesFollow I turns hc hs.2
  rw [flattenStatement] at h
  obtain ⟨e', before, hr, rfl⟩ := run_emit_hoist_eq_ok h
  refine follows_of_drop hfit ?_
  rw [Interpretation.statement]
  refine follows_emit I turns (hn.optional I turns hr hlo s t last)
    (by rw [Interpretation.statement]; rfl) ?_
  intro v s' t' _
  exact Follows.of_modify (declare_of_source I hs.1 type v s' t') (Keeps.refl lo t') trivial

theorem statementFollows_assign {token : Nat} {target : Target} {value : Expr}
    (hc : ∀ c, .cond c ∈ value → ConditionalFollows I turns c) :
    StatementFollows I turns (.assign token target value) := by
  intro _ depth tail m m' pre lo h hs hlo _ hfit s t last
  rw [IsSource, Statement.paths, List.forall_mem_cons] at hs
  have hn := nodesFollow I turns hc hs.2
  rw [flattenStatement] at h
  obtain ⟨e', before, hr, rfl⟩ := run_emit_hoist_eq_ok h
  refine follows_of_drop hfit ?_
  rw [Interpretation.statement]
  refine follows_emit I turns (hn.expr I turns hr hlo s t last)
    (by rw [Interpretation.statement]; rfl) ?_
  intro v s' t' _
  exact Follows.of_modify (write_of_source I hs.1 v s' t') (Keeps.refl lo t') trivial

theorem statementFollows_ret {token : Nat} {value : Expr}
    (hc : ∀ c, .cond c ∈ value → ConditionalFollows I turns c) :
    StatementFollows I turns (.ret token value) := by
  intro _ depth tail m m' pre lo h hs hlo _ _ s t last
  have hn := nodesFollow I turns hc hs
  rw [flattenStatement] at h
  obtain ⟨e', before, hr, rfl⟩ := run_emit_hoist_eq_ok h
  rw [Interpretation.statement]
  refine follows_emit I turns (hn.optional I turns hr hlo s t last)
    (by rw [Interpretation.statement]; rfl) ?_
  intro v s' t' _
  exact .error _ s' (Keeps.refl lo t')

/-- The value of a block goes where the tail says. -/
theorem tail_follows {tail : Tail} {lo : Nat} (hfrom : tail.From lo) (token : Nat) {e : Expr}
    {depth m m' : Nat} {pre : Block} (hn : NodesFollow I turns e)
    (h : (do emit (tail.statement token (← hoistFrom depth [] e)) : Emit Unit).run m =
      ⟨.ok (), pre, m'⟩) (hlo : lo ≤ m) (s : σ) (t : Temporaries α) (last : Value α) :
    Follows lo t (fun v _ t' => tail.Holds v t') tail.Leaves (I.expr .strict turns e s)
      ((withTemporaries I).blockFrom .strict turns last pre (s, t)) := by
  obtain ⟨e', before, hr, rfl⟩ := run_emit_hoist_eq_ok h
  rw [← bind_pure (I.expr .strict turns e)]
  have hx := hn.expr I turns hr hlo s t last
  cases tail with
  | drop =>
    refine follows_emit I turns hx
      (by rw [Tail.statement, Interpretation.statement, bind_pure]; rfl) ?_
    intro v s' t' _
    exact .ok s' (Keeps.refl lo t') (Tail.holds_drop v t')
  | store temp =>
    obtain ⟨k, hk, rfl⟩ := hfrom temp rfl
    refine follows_emit I turns hx (by rw [Tail.statement, Interpretation.statement]; rfl) ?_
    intro v s' t' _
    have hw : (withTemporaries I).write [temporaryName k] v (s', t') =
        (s', Function.update t' (temporaryName k) v) := by
      simp only [withTemporaries, temporary?_temporaryName]
    refine Follows.of_modify hw (Keeps.update hk t' v) ?_
    rintro _ ⟨rfl⟩
    exact Function.update_self _ _ _
  | give =>
    by_cases hc : e.IsComplete
    · obtain ⟨⟨hc', -⟩, -⟩ := hn hr (List.forall_mem_nil _) hc hlo
      refine follows_emit I turns hx
        (by rw [Tail.statement, Interpretation.statement_ret _ _ _ hc'.ne_nil]) ?_
      intro v s' t' _
      exact .early s' (Keeps.refl lo t') ⟨rfl, rfl⟩
    · rw [Interpretation.expr_of_not_isComplete _ _ _ hc]
      exact .fault s _

theorem statementFollows_eval {token : Nat} {value : Expr}
    (hc : ∀ c, .cond c ∈ value → ConditionalFollows I turns c) :
    StatementFollows I turns (.eval token value) := by
  intro _ depth tail m m' pre lo h hs hlo hfrom hfit s t last
  rw [Interpretation.statement]
  by_cases hdrop : ∃ c, tail = .drop ∧ value = [.cond c]
  · obtain ⟨c, rfl, rfl⟩ := hdrop
    rw [flattenStatement] at h
    have hs' : IsSource c.paths := by
      simpa [IsSource, Statement.paths, Expr.paths, Node.paths] using hs
    have hv := hc c List.mem_cons_self h hs' hlo hfrom (Tail.fits_drop _) s t last
    rwa [Interpretation.stack_cond, Interpretation.stack]
  · rw [flattenStatement_eval fun c ht hv => hdrop ⟨c, ht, hv⟩] at h
    exact tail_follows I turns hfrom token (nodesFollow I turns hc hs) h hlo s t last

/-- What a conditional becomes. -/
theorem run_flattenConditional_eq_ok {depth m m' token : Nat} {tail : Tail} {condition : Expr}
    {onTrue onFalse pre : Block} {r r' : Bool}
    (h : (flattenConditional depth tail (.mk token condition onTrue onFalse r r')).run m =
      ⟨.ok (), pre, m'⟩) :
    ∃ e before m₁ onTrue' m₂ onFalse', (hoistFrom depth [] condition).run m = ⟨.ok e, before, m₁⟩ ∧
      (flattenBlock depth tail onTrue).run m₁ = ⟨.ok (), onTrue', m₂⟩ ∧
      (flattenBlock depth tail onFalse).run m₂ = ⟨.ok (), onFalse', m'⟩ ∧
      pre = before ++ [.cond (.mk token e onTrue' onFalse' r r')] := by
  rw [flattenConditional] at h
  obtain ⟨e, before, m₁, _, h₁, hrest, rfl⟩ := run_bind_eq_ok h
  obtain ⟨onTrue', m₂, h₂, hlast⟩ := run_capture_bind_eq_ok hrest
  obtain ⟨onFalse', m₃, h₃, hemit⟩ := run_capture_bind_eq_ok hlast
  cases hemit
  exact ⟨e, before, m₁, onTrue', m₂, onFalse', h₁, h₂, h₃, rfl⟩

/-- If a conditional statement has a value, the conditional has one. -/
theorem Tail.Fits.cond {tail : Tail} {token : Nat} {c : Conditional}
    (h : tail.Fits (statementGap? token (.cond c))) : tail.Fits (conditionalGap? c) := by
  intro temp ht
  have hg := h temp ht
  cases c with
  | mk inner condition onTrue onFalse r r' =>
    change (if onFalse.isEmpty then some inner else _) = none
    rw [statementGap?] at hg
    by_cases hempty : onFalse.isEmpty = true
    · rw [if_pos hempty] at hg
      cases hg
    · rwa [if_neg hempty] at hg ⊢

/-- If a conditional has a value, both of its blocks have one. -/
theorem Tail.Fits.blocks {tail : Tail} {token : Nat} {condition : Expr} {onTrue onFalse : Block}
    {r r' : Bool} (h : tail.Fits (conditionalGap? (.mk token condition onTrue onFalse r r'))) :
    tail.Fits (blockGap? token onTrue) ∧ tail.Fits (blockGap? token onFalse) := by
  refine forall₂_and.mp fun temp ht => ?_
  have hg : (if onFalse.isEmpty then some token else _) = none := h temp ht
  by_cases hempty : onFalse.isEmpty = true
  · rw [if_pos hempty] at hg
    cases hg
  · rw [if_neg hempty] at hg
    split at hg
    · cases hg
    · next htrue => exact ⟨htrue, hg⟩

/-- A conditional follows if its condition and both of its blocks do. -/
theorem conditionalFollows {token : Nat} {condition : Expr} {onTrue onFalse : Block} {r r' : Bool}
    (hc : ∀ c, .cond c ∈ condition → ConditionalFollows I turns c)
    (ht : BlockFollows I turns onTrue) (hf : BlockFollows I turns onFalse) :
    ConditionalFollows I turns (.mk token condition onTrue onFalse r r') := by
  intro depth tail m m' pre lo h hs hlo hfrom hfit s t last
  rw [IsSource, Conditional.paths, List.forall_mem_append, List.forall_mem_append] at hs
  obtain ⟨⟨hsc, hst⟩, hsf⟩ := hs
  obtain ⟨e, before, m₁, onTrue', m₂, onFalse', h₁, h₂, h₃, rfl⟩ := run_flattenConditional_eq_ok h
  have hm₁ := (grows_hoist depth [] condition).le h₁
  have hm₂ := (grows_flattenBlock depth onTrue tail).le h₂
  rw [Interpretation.conditional]
  refine follows_emit I turns ((nodesFollow I turns hc hsc).expr I turns h₁ hlo s t last)
    (by rw [Interpretation.statement, Interpretation.conditional]; rfl) ?_
  intro v s' t' _
  rcases v with (_ | _) | _
  · exact hf token h₃ hsf (by omega) hfrom hfit.blocks.2 s' t' _ _
  · exact ht token h₂ hst (by omega) hfrom hfit.blocks.1 s' t' _ _
  · exact .fault s' _

end FrontEnd.ControlFlow
