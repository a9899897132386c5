import FrontEnd.Proofs.ControlFlow.Loops
import FrontEnd.Proofs.ControlFlow.Plain

/-!
# Flat functions do the same

All statements and blocks are followed by what is written for them. A function that must
return a value is only accepted if its flat body returns on every path, so that the end
of the body, where the value of a tail would be lost, is not reached.
-/

namespace FrontEnd.ControlFlow

open Emit Meaning

variable {α σ : Type} (I : Interpretation α σ) (turns : Nat)

theorem statementFollows_exit (token amount : Nat) :
    StatementFollows I turns (.exit token amount) := by
  intro _ depth tail m m' pre lo h _ _ _ _ s t last
  rw [flattenStatement] at h
  split at h
  · cases h
  · cases h
    rw [Interpretation.blockFrom_singleton, Interpretation.statement, Interpretation.statement]
    exact .error _ s (Keeps.refl lo t)

theorem statementFollows_next (token : Nat) : StatementFollows I turns (.next token) := by
  intro _ depth tail m m' pre lo h _ _ _ _ s t last
  rw [flattenStatement] at h
  split at h
  · cases h
  · cases h
    rw [Interpretation.blockFrom_singleton, Interpretation.statement, Interpretation.statement]
    exact .error _ s (Keeps.refl lo t)

theorem statementFollows_cond {c : Conditional} (hc : ConditionalFollows I turns c) :
    StatementFollows I turns (.cond c) := by
  intro _ depth tail m m' pre lo h hs hlo hfrom hfit s t last
  rw [flattenStatement] at h
  rw [Statement.paths] at hs
  rw [Interpretation.statement]
  exact hc h hs hlo hfrom hfit.cond s t last

theorem blockFollows_nil : BlockFollows I turns [] := by
  intro _ depth tail m m' pre lo h _ _ _ hfit s t last last'
  rw [flattenBlock] at h
  cases h
  rw [blockGap?] at hfit
  exact .ok s (Keeps.refl lo t) (hfit.holds last t)

/-- The tail is that of the last statement, and what comes before is evaluated for its effect. -/
theorem BlockFollows.cons {s : Statement} {rest : Block} (hs : StatementFollows I turns s)
    (hr : BlockFollows I turns rest) : BlockFollows I turns (s :: rest) := by
  intro token depth tail m m' pre lo h hsource hlo hfrom hfit st t last last'
  rw [IsSource, Block.paths, List.forall_mem_append] at hsource
  rw [flattenBlock] at h
  obtain ⟨_, first, m₁, more, h₁, h₂, rfl⟩ := run_bind_eq_ok h
  have hm₁ := (grows_flattenStatement depth s _).le h₁
  rw [Interpretation.blockFrom, Interpretation.blockFrom_append]
  rw [blockGap?] at hfit
  cases rest with
  | nil =>
    rw [flattenBlock] at h₂
    cases h₂
    refine (hs token h₁ hsource.1 hlo hfrom hfit st t last').bind_early ?_ ?_
    · intro v w st' t' hk hv
      exact .ok st' hk hv
    · intro v e st' t' hk he
      exact .early st' hk he
  | cons s' rest =>
    have hd := hs token h₁ hsource.1 hlo (Tail.from_drop lo) (Tail.fits_drop _) st t last'
    refine hd.bind_early ?_ fun _ _ _ _ _ he => (Tail.leaves_drop he).elim
    intro v w st' t' hk _
    exact (hr token h₂ hsource.2 (by omega) hfrom hfit st' t' v w).since (Nat.le_refl lo) hk

mutual

theorem conditionals_follow : ∀ (nodes : List Node) (c : Conditional), .cond c ∈ nodes →
    ConditionalFollows I turns c
  | .cond c :: rest, c', hc => by
    rcases List.mem_cons.mp hc with heq | hr
    · cases heq
      exact conditional_follows c
    · exact conditionals_follow rest c' hr
  | .int .. :: rest, c', hc | .float .. :: rest, c', hc | .bool .. :: rest, c', hc
  | .var .. :: rest, c', hc | .op .. :: rest, c', hc | .call .. :: rest, c', hc =>
    conditionals_follow rest c' (by simpa using hc)

theorem conditional_follows : ∀ c : Conditional, ConditionalFollows I turns c
  | .mk _ condition onTrue onFalse _ _ =>
    conditionalFollows I turns (conditionals_follow condition) (block_follows onTrue)
      (block_follows onFalse)

theorem statement_follows : ∀ s : Statement, StatementFollows I turns s
  | .declare _ _ _ value _ => statementFollows_declare I turns (conditionals_follow value)
  | .assign _ _ value => statementFollows_assign I turns (conditionals_follow value)
  | .eval _ value => statementFollows_eval I turns (conditionals_follow value)
  | .ret _ value => statementFollows_ret I turns (conditionals_follow value)
  | .cond c => statementFollows_cond I turns (conditional_follows c)
  | .loop _ condition body =>
    statementFollows_loop I turns (conditionals_follow condition) (block_follows body)
  | .exit token amount => statementFollows_exit I turns token amount
  | .next token => statementFollows_next I turns token

theorem block_follows : ∀ b : List Statement, BlockFollows I turns b
  | [] => blockFollows_nil I turns
  | s :: rest => BlockFollows.cons I turns (statement_follows s) (block_follows rest)

end

mutual

/-- Marks do not change what a statement does. -/
theorem statement_markStatement : ∀ s : Statement,
    I.statement .strict turns (markStatement s).1 = I.statement .strict turns s
  | .cond c => by
    rw [markStatement, Interpretation.statement, Interpretation.statement]
    exact conditional_markConditional c
  | .loop _ condition body => by
    rw [markStatement, Interpretation.statement, Interpretation.statement,
      blockFrom_markBlock body]
  | .declare .. | .assign .. | .eval .. | .ret .. | .exit .. | .next .. => rfl

theorem conditional_markConditional : ∀ c : Conditional,
    I.conditional .strict turns (markConditional c).1 = I.conditional .strict turns c
  | .mk _ condition onTrue onFalse _ _ => by
    rw [markConditional, Interpretation.conditional, Interpretation.conditional,
      blockFrom_markBlock onTrue, blockFrom_markBlock onFalse]

theorem blockFrom_markBlock : ∀ (b : List Statement) (last : Value α),
    I.blockFrom .strict turns last (markBlock b).1 = I.blockFrom .strict turns last b
  | [], last => by rw [markBlock]
  | s :: rest, last => by
    rw [markBlock, Interpretation.blockFrom, Interpretation.blockFrom, statement_markStatement s]
    exact bind_congr fun v => blockFrom_markBlock rest v

end

/-- A run that always ends early. -/
def NeverGoesOn {β : Type} (x : Run α σ β) : Prop := ∀ s a s', x s ≠ .ok a s'

namespace NeverGoesOn

variable {β γ : Type}

theorem bind {x : Run α σ β} (h : NeverGoesOn x) (f : β → Run α σ γ) : NeverGoesOn (x >>= f) := by
  intro s a s' hr
  rw [bind_apply] at hr
  cases hx : x s with
  | ok b s'' => exact h s b s'' hx
  | error e s'' =>
    rw [hx] at hr
    cases hr

theorem bind_right (x : Run α σ β) {f : β → Run α σ γ} (h : ∀ a, NeverGoesOn (f a)) :
    NeverGoesOn (x >>= f) := by
  intro s a s' hr
  rw [bind_apply] at hr
  cases hx : x s with
  | ok b s'' =>
    rw [hx] at hr
    exact h b s'' a s' hr
  | error e s'' =>
    rw [hx] at hr
    cases hr

end NeverGoesOn

/-- Where the second run never goes on, nothing need be said about where both do. -/
theorem Follows.of_neverGoesOn {β γ : Type} {bound : Nat} {t : Temporaries α}
    {post post' : β → γ → Temporaries α → Prop} {early : β → Ending α → Prop}
    {r : EStateM.Result (Ending α) σ β} {y : Run α (σ × Temporaries α) γ} {s : σ}
    (h : Follows bound t post early r (y (s, t))) (hy : NeverGoesOn y) :
    Follows bound t post' early r (y (s, t)) := by
  have hne := hy (s, t)
  generalize y (s, t) = r' at h hne
  cases h with
  | fault s r => exact .fault s _
  | ok s hk h => exact absurd rfl (hne _ _)
  | early s hk h => exact .early s hk h
  | error e s hk => exact .error e s hk

mutual

theorem statement_of_returns : ∀ s : Statement, (markStatement s).2 = true →
    NeverGoesOn (I.statement .strict turns s)
  | .ret _ _, _ => by
    rw [Interpretation.statement]
    exact NeverGoesOn.bind_right _ fun _ _ _ _ h => nomatch h
  | .cond c, h => by
    rw [Interpretation.statement]
    exact conditional_of_returns c h
  | .declare .., h | .assign .., h | .eval .., h | .loop .., h | .exit .., h | .next .., h => by
    cases h

theorem conditional_of_returns : ∀ c : Conditional, (markConditional c).2 = true →
    NeverGoesOn (I.conditional .strict turns c)
  | .mk _ condition onTrue onFalse _ _, h => by
    rw [markConditional, Bool.and_eq_true] at h
    rw [Interpretation.conditional]
    refine NeverGoesOn.bind_right _ fun v => NeverGoesOn.bind_right _ fun b => ?_
    cases b with
    | true => exact blockFrom_of_returns onTrue h.1 _
    | false => exact blockFrom_of_returns onFalse h.2 _

/-- A block that is marked as one that returns does not reach its end. -/
theorem blockFrom_of_returns : ∀ b : List Statement, (markBlock b).2 = true →
    ∀ last : Value α, NeverGoesOn (I.blockFrom .strict turns last b)
  | [], h, _ => by
    rw [markBlock] at h
    cases h
  | s :: rest, h, last => by
    rw [markBlock, Bool.or_eq_true] at h
    rw [Interpretation.blockFrom]
    rcases h with h | h
    · exact (statement_of_returns s h).bind _
    · exact NeverGoesOn.bind_right _ fun v => blockFrom_of_returns rest h v

end

/-- What a function becomes, and that a value it must return is not missing at the end. -/
theorem run_flattenFunction_eq_ok {f g : Function} {m m' : Nat} {pre : Block}
    (h : (flattenFunction f).run m = ⟨.ok g, pre, m'⟩) :
    ∃ body, (flattenBlock 0 (if f.returnType.isVoid then .drop else .give) f.body).run m =
        ⟨.ok (), body, m'⟩ ∧
      g = { f with body := (markBlock body).1 } ∧
      (f.returnType.isVoid = false → (markBlock body).2 = true) := by
  rw [flattenFunction] at h
  obtain ⟨body, m₁, h₁, hrest⟩ := run_capture_bind_eq_ok h
  split at hrest
  next body' returns hmark =>
  split at hrest
  · next hok =>
    cases hrest
    refine ⟨body, h₁, by rw [hmark], fun hvoid => ?_⟩
    rw [hvoid, Bool.false_or] at hok
    rw [hmark]
    exact hok
  · cases hrest

/-- The flat body follows the function. -/
theorem flattenFunction_follows {f g : Function} {m m' : Nat} {pre : Block}
    (h : (flattenFunction f).run m = ⟨.ok g, pre, m'⟩) (hs : IsSource (Block.paths f.body)) (s : σ)
    (t : Temporaries α) :
    Follows m t (fun a b _ => a = b) Never (I.function .strict turns f s)
      (discard ((withTemporaries I).block .strict turns g.body) (s, t)) := by
  obtain ⟨body, hbody, rfl, hreturns⟩ := run_flattenFunction_eq_ok h
  change Follows m t _ Never _ (((fun _ => ()) <$>
    (withTemporaries I).block .strict turns (markBlock body).1) (s, t))
  rw [Interpretation.function, Interpretation.block, Interpretation.block, blockFrom_markBlock,
    map_eq_pure_bind]
  cases hvoid : f.returnType.isVoid with
  | true =>
    rw [hvoid] at hbody
    have hb := block_follows I turns f.body 0 hbody hs (Nat.le_refl m) (Tail.from_drop m)
      (Tail.fits_drop _) s t I.void I.void
    refine hb.bind_early ?_ fun _ _ _ _ _ he => (Tail.leaves_drop he).elim
    intro v _ s' t' hk _
    exact .ok s' hk rfl
  | false =>
    rw [hvoid] at hbody
    have hb := block_follows I turns f.body 0 hbody hs (Nat.le_refl m) nofun nofun s t I.void I.void
    have hnever := blockFrom_of_returns (withTemporaries I) turns body (hreturns hvoid) I.void
    have hb' : Follows m t (fun _ _ _ => False) Tail.give.Leaves _ _ := hb.of_neverGoesOn hnever
    refine hb'.bind_early ?_ ?_
    · intro v _ s' t' _ hpost
      exact hpost.elim
    · rintro v _ s' t' hk ⟨-, rfl⟩
      exact .error _ s' hk

/-- A flat function has a plain body. -/
theorem isPlain_flattenFunction {f g : Function} {m m' : Nat} {pre : Block}
    (h : (flattenFunction f).run m = ⟨.ok g, pre, m'⟩) : Block.IsPlain g.body := by
  obtain ⟨body, hbody, rfl, -⟩ := run_flattenFunction_eq_ok h
  have hplain := writes_flattenBlock 0 f.body (if f.returnType.isVoid then .drop else .give) m
  rw [hbody] at hplain
  rw [Block.IsPlain, exprs_markBlock]
  exact hplain.1

/-- **Flattening keeps what a function does.** The body of a flat function holds no conditional in an
expression. Run from any store and any values of temporaries, it ends as the function does, with the
same store, and may only leave other values in temporaries. The run from which this starts must meet
no fault: its expressions are complete, and its conditions are booleans. Variables that a source
names are no temporaries. Loops may take any number of turns. -/
theorem flattenFunction_preserves {f g : Function} {m m' : Nat} {pre : Block}
    (h : (flattenFunction f).run m = ⟨.ok g, pre, m'⟩) (hs : IsSource (Block.paths f.body)) :
    Block.IsPlain g.body ∧ ∀ (s : σ) (t : Temporaries α),
      ¬ IsFault (I.function .strict turns f s) →
      ∃ t', discard ((withTemporaries I).block .strict turns g.body) (s, t) =
        attach t' (I.function .strict turns f s) :=
  ⟨isPlain_flattenFunction h, fun s t hf =>
    (flattenFunction_follows I turns h hs s t).eq_attach hf⟩

/-- `g() && if a { h() } else { return false }` where `a` is true: `g` is called before `h`, and the
value of the whole is returned. -/
theorem flattenFunction_recorded :
    let I := Interpretation.recorded [["a"]]
    let f : Function :=
      { token := 0, name := "f", isPublic := false, params := [], returnType := .bool, index := 0,
        uniqueName := none, locals := [],
        body := [.eval 1 [.call 1 ["g"] 0 [],
          .cond (.ofBlocks 2 [.var 2 ["a"] none] [.eval 3 [.call 3 ["h"] 0 []]]
            [.ret 4 [.bool 4 false]]), .op 5 .and]] }
    IsSource (Block.paths f.body) ∧ ¬ IsFault (I.function .strict 1 f []) ∧
      ∃ g m', (flattenFunction f).run 0 = ⟨.ok g, [], m'⟩ ∧ ∀ t, ∃ t',
        discard ((withTemporaries I).block .strict 1 g.body) ([], t) =
          attach t' (.error (.ret (some (.bool true))) [["g"], ["h"]]) := by
  intro I f
  have hs : IsSource (Block.paths f.body) := by decide
  have hf : ¬ IsFault (I.function .strict 1 f []) := by decide
  refine ⟨hs, hf, _, _, rfl, fun t => ?_⟩
  exact (flattenFunction_preserves I 1 rfl hs).2 [] t hf

end FrontEnd.ControlFlow
