import FrontEnd.Proofs.ControlFlow.Preservation

/-!
# Loops whose condition is hoisted

A loop evaluates a condition without conditionals where it stands. One with conditionals
becomes a loop that always goes on, and whose body starts with the condition and leaves
the loop if it does not hold. So an exit or a `next` in the condition is one of the same
loop before and after.
-/

namespace FrontEnd.ControlFlow

open Emit Meaning

variable {α σ : Type} (I : Interpretation α σ) (turns : Nat)

/-- An expression of a source that holds no conditional follows itself. -/
theorem expr_follows {e : Expr} (hc : e.containsConditional = false)
    (hs : IsSource (Expr.paths e)) (lo : Nat) (s : σ) (t : Temporaries α) :
    Follows lo t (fun v w _ => v = w) Never (I.expr .strict turns e s)
      ((withTemporaries I).expr .strict turns e (s, t)) := by
  by_cases hcomplete : e.IsComplete
  · have hc' : ∀ n ∈ e, n.isConditional = false := by
      simpa [Expr.containsConditional] using hc
    have hf : ∀ n ∈ e, Flat 0 n := fun n hn =>
      IsSource.flat (fun p hp => hs p (Expr.mem_paths hn hp)) (hc' n hn) 0
    have hv : given t ((withTemporaries I).expr .strict turns e) = I.expr .strict turns e := by
      rw [← Interpretation.onStack_eq_expr _ _ hcomplete,
        ← Interpretation.onStack_eq_expr _ _ hcomplete, Interpretation.onStack,
        Interpretation.onStack, (quiet_values I turns hf []).given_bind,
        given_values I turns hc' hs]
      refine bind_congr fun vs => ?_
      rcases vs with _ | ⟨v, _ | ⟨w, vs⟩⟩ <;> rfl
    rw [← hv]
    exact (Follows.of_quiet (quiet_expr I turns hcomplete hf) s).imp (fun _ _ _ h => h.1)
      fun _ _ he => he
  · rw [Interpretation.expr_of_not_isComplete _ _ _ hcomplete]
    exact .fault s _

/-- A turn whose condition and body are followed is followed. -/
theorem turn_follows {lo : Nat} {condition body : Run α σ (Value α)}
    {condition' body' : Run α (σ × Temporaries α) (Value α)}
    (hc : ∀ s t, Follows lo t (fun v w _ => v = w) Never (condition s) (condition' (s, t)))
    (hb : ∀ s t, Follows lo t (fun _ _ _ => True) Never (body s) (body' (s, t))) (s : σ)
    (t : Temporaries α) :
    Follows lo t (fun a b _ => a = b) Never (turn condition body s)
      (turn condition' body' (s, t)) := by
  refine Follows.endTurn ((hc s t).bind ?_)
  rintro v _ s' t' hk rfl
  match v with
  | .bool false => exact .ok s' hk rfl
  | .bool true =>
    rw [asBool, asBool, pure_bind, pure_bind, if_pos rfl, if_pos rfl]
    refine Follows.since ((hb s' t').discard.bind ?_) (Nat.le_refl lo) hk
    rintro _ _ s'' t'' hk' -
    exact .ok s'' hk' rfl
  | .other _ => exact .fault s' _

/-- The statement that tests a condition negates it, and exits if the result is true. -/
theorem statement_exitUnless {e : Expr} (h : e.IsComplete) (token : Nat) :
    I.statement .strict turns (exitUnless token e) = (do
      let v ← I.expr .strict turns e
      if ← asBool (I.operate .not [v]) then throw (.exit 1) else return I.void) := by
  change (do
    if ← asBool (← I.expr .strict turns (e ++ [Node.op token .not])) then
      I.blockFrom .strict turns I.void [.exit token 1]
    else I.blockFrom .strict turns I.void []) = _
  rw [Interpretation.expr_append_op _ _ _ h rfl, bind_assoc, Interpretation.blockFrom_singleton,
    Interpretation.statement, Interpretation.blockFrom]
  simp only [pure_bind]

/-- The statement that tests a condition goes on where it holds, and leaves the loop where not. -/
theorem test_follows {condition : Expr} (hn : NodesFollow I turns condition) {token : Nat}
    {depth m m' lo : Nat} {test : Block}
    (h : (do emit (exitUnless token (← hoistFrom depth [] condition)) : Emit Unit).run m =
      ⟨.ok (), test, m'⟩) (hlo : lo ≤ m) (s : σ) (t : Temporaries α) (last : Value α) :
    Follows lo t (fun b _ _ => b = true) (fun b e => b = false ∧ e = .exit 1)
      ((I.expr .strict turns condition >>= asBool) s)
      ((withTemporaries I).blockFrom .strict turns last test (s, t)) := by
  by_cases hc : condition.IsComplete
  · obtain ⟨e, before, hr, rfl⟩ := run_emit_hoist_eq_ok h
    obtain ⟨⟨hc', -⟩, -⟩ := hn hr (List.forall_mem_nil _) hc hlo
    refine follows_emit I turns (hn.expr I turns hr hlo s t last)
      (statement_exitUnless _ turns hc' token) ?_
    intro v s' t' _
    match v with
    | .bool true =>
      rw [(withTemporaries I).operate_not]
      exact .ok s' (Keeps.refl lo t') rfl
    | .bool false =>
      rw [(withTemporaries I).operate_not]
      exact .early s' (Keeps.refl lo t') ⟨rfl, rfl⟩
    | .other _ => exact .fault s' _
  · rw [Interpretation.expr_of_not_isComplete _ _ _ hc]
    exact .fault s _

/-- A turn that starts with the test of its condition follows a turn with the condition. -/
theorem turn_follows_of_test {lo : Nat} {condition body : Run α σ (Value α)}
    {condition' : Run α (σ × Temporaries α) (Value α)} {test body' : Block}
    (htrue : condition' = pure (.bool true))
    (hc : ∀ s t last, Follows lo t (fun b _ _ => b = true) (fun b e => b = false ∧ e = .exit 1)
      ((condition >>= asBool) s) ((withTemporaries I).blockFrom .strict turns last test (s, t)))
    (hb : ∀ s t last, Follows lo t (fun _ _ _ => True) Never (body s)
      ((withTemporaries I).blockFrom .strict turns last body' (s, t))) (s : σ)
    (t : Temporaries α) (last : Value α) :
    Follows lo t (fun a b _ => a = b) Never (turn condition body s)
      (turn condition' ((withTemporaries I).blockFrom .strict turns last (test ++ body'))
        (s, t)) := by
  refine Follows.endTurn ?_
  rw [htrue, pure_bind, asBool, pure_bind, if_pos rfl, Interpretation.blockFrom_append,
    discard_bind, bind_assoc, ← bind_assoc condition]
  refine (hc s t last).bind_early ?_ ?_
  · rintro _ w s' t' hk rfl
    rw [if_pos rfl]
    refine Follows.since ((hb s' t' w).discard.bind ?_) (Nat.le_refl lo) hk
    rintro _ _ s'' t'' hk' -
    exact .ok s'' hk' rfl
  · rintro _ _ s' t' hk ⟨rfl, rfl⟩
    exact .early s' hk ⟨rfl, rfl⟩

theorem statementFollows_loop {token : Nat} {condition : Expr} {body : Block}
    (hc : ∀ c, .cond c ∈ condition → ConditionalFollows I turns c)
    (hb : BlockFollows I turns body) : StatementFollows I turns (.loop token condition body) := by
  intro _ depth tail m m' pre lo h hs hlo _ hfit s t last
  rw [IsSource, Statement.paths, List.forall_mem_append] at hs
  have hn := nodesFollow I turns hc hs.1
  rw [flattenStatement] at h
  obtain ⟨body', m₁, h₁, hrest⟩ := run_capture_bind_eq_ok h
  have hm₁ := (grows_flattenBlock (depth + 1) body .drop).le h₁
  have hbody : ∀ s t last, Follows lo t (fun _ _ _ => True) Never
      (I.blockFrom .strict turns I.void body s)
      ((withTemporaries I).blockFrom .strict turns last body' (s, t)) := fun s t last =>
    (hb token h₁ hs.2 hlo (Tail.from_drop lo) (Tail.fits_drop _) s t I.void last).imp
      (fun _ _ _ _ => trivial) fun _ _ he => (Tail.leaves_drop he).elim
  refine follows_of_drop hfit ?_
  rw [Interpretation.statement]
  split at hrest
  · next hcond =>
    obtain ⟨test, m₂, h₂, hemit⟩ := run_capture_bind_eq_ok hrest
    cases hemit
    rw [Interpretation.blockFrom_singleton, Interpretation.statement]
    refine Follows.bind (Follows.loop (fun s t => ?_) turns s t) ?_
    · exact turn_follows_of_test I turns rfl
        (fun s t last => test_follows I turns hn h₂ (by omega) s t last) hbody s t _
    · intro _ _ s' t' hk _
      exact .ok s' hk trivial
  · next hcond =>
    cases hrest
    rw [Interpretation.blockFrom_singleton, Interpretation.statement]
    refine Follows.bind (Follows.loop (fun s t => ?_) turns s t) ?_
    · exact turn_follows (fun s t => expr_follows I turns (by simpa using hcond) hs.1 lo s t)
        (fun s t => hbody s t _) s t
    · intro _ _ s' t' hk _
      exact .ok s' hk trivial

end FrontEnd.ControlFlow
