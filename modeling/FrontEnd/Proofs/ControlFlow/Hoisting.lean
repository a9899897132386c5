import FrontEnd.Proofs.ControlFlow.Following
import FrontEnd.Proofs.ControlFlow.Numbering

/-!
# Hoisting conditionals

The statements that are written in front of an expression, and then what is left of the
expression, do what the expression did. While it is hoisted, the nodes that have been
passed are the operands on the stack, not yet run; a conditional runs those that came
before it first, and from then on they are temporaries that nothing changes.
-/

namespace FrontEnd.ControlFlow

open Emit Meaning

variable {α σ : Type}

/-- Complete operands without conditionals, which read no temporary from a bound on. -/
def Ready (bound : Nat) (operands : List Expr) : Prop :=
  ∀ e ∈ operands, e.IsComplete ∧ ∀ n ∈ e, Flat bound n

namespace Ready

variable {bound bound' : Nat} {operands : List Expr}

theorem mono (h : Ready bound operands) (hb : bound ≤ bound') : Ready bound' operands :=
  fun e he => ⟨(h e he).1, fun n hn => ((h e he).2 n hn).mono hb⟩

theorem cons {e : Expr} (hc : e.IsComplete) (hf : ∀ n ∈ e, Flat bound n)
    (h : Ready bound operands) : Ready bound (e :: operands) :=
  List.forall_mem_cons.mpr ⟨⟨hc, hf⟩, h⟩

/-- What is on the stack reads no temporary from the bound on. -/
theorem flat (h : Ready bound operands) : ∀ n ∈ nodesOnStack operands, Flat bound n := by
  intro n hn
  rw [nodesOnStack, List.mem_flatten] at hn
  obtain ⟨e, he, hn⟩ := hn
  exact (h e (List.mem_reverse.mp he)).2 n hn

theorem pushNode {n : Node} (h : Ready bound operands) (hn : n.operands ≤ operands.length)
    (hf : Flat bound n) : Ready bound (pushNode operands n) := by
  have htake : Ready bound (operands.take n.operands) :=
    fun e he => h e (List.mem_of_mem_take he)
  refine Ready.cons ?_ ?_ fun e he => h e (List.mem_of_mem_drop he)
  · refine Expr.isComplete_flatten_append (fun e he => (htake e (List.mem_reverse.mp he)).1) ?_
    rw [List.length_reverse, List.length_take, Nat.min_eq_left hn]
  · rw [List.forall_mem_append]
    exact ⟨htake.flat, by simpa using hf⟩

end Ready

variable (I : Interpretation α σ) (turns : Nat)

/-- A temporary has the value that is stored in it. -/
theorem given_temporary (t : Temporaries α) (k token : Nat) (binding : Option Binding) :
    given t ((withTemporaries I).expr .strict turns [.var token [temporaryName k] binding]) =
      pure (t (temporaryName k)) := by
  funext s
  change EStateM.Result.ok ((withTemporaries I).read [temporaryName k] (s, t)) s = _
  simp only [withTemporaries, temporary?_temporaryName]
  rfl

/-- A run of an expression whose conditionals are gone does not depend on later temporaries. -/
theorem quiet_expr {bound : Nat} {e : Expr} (hc : e.IsComplete) (h : ∀ n ∈ e, Flat bound n) :
    Quiet bound ((withTemporaries I).expr .strict turns e) := by
  rw [← Interpretation.onStack_eq_expr _ _ hc]
  refine (quiet_values I turns h []).bind fun vs => ?_
  split
  · exact Quiet.pure _
  · exact Quiet.throw _

/-- A literal and a temporary have a value that nothing changes. -/
theorem given_of_safe {n : Node} (h : (n.isLiteral || isTemporary n) = true)
    (t : Temporaries α) :
    ∃ v, given t ((withTemporaries I).expr .strict turns [n]) = pure v := by
  cases n with
  | int token value type => exact ⟨I.int value type, rfl⟩
  | float token value type => exact ⟨I.float value type, rfl⟩
  | bool token value => exact ⟨.bool value, rfl⟩
  | var token path binding =>
    have ht : isTemporary (.var token path binding) = true := h
    rw [isTemporary_eq, Option.isSome_iff_exists] at ht
    obtain ⟨name, hname⟩ := ht
    refine ⟨t name, funext fun s => ?_⟩
    change EStateM.Result.ok ((withTemporaries I).read path (s, t)) s = _
    simp only [withTemporaries, hname]
    rfl
  | op | call | cond => cases h

/-- An operand is parked where nothing changes its value. -/
theorem park_follows {token m m' : Nat} {operand parked : Expr} {pre : Block}
    (h : (park token operand).run m = ⟨.ok parked, pre, m'⟩) (hc : operand.IsComplete)
    (hf : ∀ n ∈ operand, Flat m n) :
    (parked.IsComplete ∧ ∀ n ∈ parked, Flat m' n) ∧ ∀ s t last,
      Follows m t (fun v _ t' => given t' ((withTemporaries I).expr .strict turns parked) = pure v)
        Never (given t ((withTemporaries I).expr .strict turns operand) s)
        ((withTemporaries I).blockFrom .strict turns last pre (s, t)) := by
  rcases park_cases token operand with ⟨n, rfl, hn, hp⟩ | hp
  · rw [hp] at h
    cases h
    refine ⟨⟨hc, hf⟩, fun s t last => ?_⟩
    obtain ⟨v, hv⟩ := given_of_safe I turns hn t
    rw [hv]
    exact .ok s (Keeps.refl m t) hv
  · rw [hp] at h
    cases h
    refine ⟨⟨rfl, ?_⟩, fun s t last => ?_⟩
    · exact List.forall_mem_singleton.mpr (Flat.temporary (Nat.lt_succ_self m) _ _)
    · change Follows m t _ Never _ (Interpretation.blockFrom _ _ _ last
        [.declare token (temporaryName m) none operand none] (s, t))
      rw [Interpretation.blockFrom_singleton, Interpretation.statement_declare _ _ _ hc.ne_nil,
        ← bind_pure (given t _)]
      refine (Follows.of_quiet (quiet_expr I turns hc hf) s).bind ?_
      rintro v _ s' t - ⟨rfl, rfl⟩
      have hd : (withTemporaries I).declare (temporaryName m) none (some v) (s', t) =
          (s', Function.update t (temporaryName m) v) := by
        simp only [withTemporaries, temporary?_temporaryName]
      refine Follows.of_modify hd (Keeps.update (Nat.le_refl m) t v) ?_
      rw [given_temporary, Function.update_self]

/-- One more operand that has its value gives one more value. -/
theorem given_nodesOnStack_cons {bound : Nat} {e : Expr} {below : List Expr} {t : Temporaries α}
    {v : Value α} {vs : List (Value α)} (hb : Ready bound below) (hc : e.IsComplete)
    (hf : ∀ n ∈ e, Flat bound n)
    (hv : given t ((withTemporaries I).expr .strict turns e) = pure v)
    (hvs : given t ((withTemporaries I).values turns [] (nodesOnStack below)) = pure vs) :
    given t ((withTemporaries I).values turns [] (nodesOnStack (e :: below))) =
      pure (v :: vs) := by
  rw [nodesOnStack_cons, Interpretation.values_append, (quiet_values I turns hb.flat []).given_bind,
    hvs, pure_bind, Interpretation.values_of_isComplete _ _ hc,
    (quiet_expr I turns hc hf).given_bind, hv, pure_bind]
  rfl

/-- Spilled operands stay on the stack with the values that they had. -/
theorem spill_follows {token m m' : Nat} {operands spilled : List Expr} {pre : Block}
    (h : (spill token operands).run m = ⟨.ok spilled, pre, m'⟩) (ho : Ready m operands) :
    Ready m' spilled ∧ spilled.length = operands.length ∧ ∀ s t last,
      Follows m t (fun vs _ t' =>
          given t' ((withTemporaries I).values turns [] (nodesOnStack spilled)) = pure vs) Never
        (given t ((withTemporaries I).values turns [] (nodesOnStack operands)) s)
        ((withTemporaries I).blockFrom .strict turns last pre (s, t)) := by
  induction operands generalizing m' spilled pre with
  | nil =>
    cases h
    exact ⟨ho, rfl, fun s t last => .ok s (Keeps.refl m t) rfl⟩
  | cons operand below ih =>
    rw [Ready, List.forall_mem_cons] at ho
    obtain ⟨⟨hc, hf⟩, hb⟩ := ho
    obtain ⟨below', pre₁, m₁, _, h₁, hrest, rfl⟩ := run_bind_eq_ok h
    obtain ⟨parked, pre₂, m₂, _, h₂, hlast, rfl⟩ := run_bind_eq_ok hrest
    cases hlast
    have hm₁ := (grows_spill token below).le h₁
    have hm₂ := (grows_park token operand).le h₂
    have hf₁ : ∀ n ∈ operand, Flat m₁ n := fun n hn => (hf n hn).mono hm₁
    obtain ⟨hb', hl, hfb⟩ := ih h₁ hb
    obtain ⟨⟨hc', hf'⟩, hfp⟩ := park_follows I turns h₂ hc hf₁
    refine ⟨(hb'.mono hm₂).cons hc' hf', by simp [hl], fun s t last => ?_⟩
    rw [nodesOnStack_cons operand, Interpretation.values_append,
      (quiet_values I turns (Ready.flat hb) []).given_bind, List.append_nil,
      Interpretation.blockFrom_append]
    refine (hfb s t last).bind ?_
    intro vs w s' t' hk hvs
    rw [Interpretation.values_of_isComplete _ _ hc, (quiet_expr I turns hc hf).given_bind,
      ← (quiet_expr I turns hc hf).given_eq hk]
    refine Follows.map_left ((hfp s' t' w).weaken hm₁ hk ?_ fun _ _ he => he)
    intro v _ t'' hk' hv
    refine given_nodesOnStack_cons I turns (hb'.mono hm₂) hc' hf' hv ?_
    rw [(quiet_values I turns hb'.flat []).given_eq hk', hvs]

/-- A temporary is only reserved for a conditional that has a value. -/
theorem run_reserve_eq_ok {c : Conditional} {temp : String} {m m' : Nat} {pre : Block}
    (h : (reserve c).run m = ⟨.ok temp, pre, m'⟩) :
    temp = temporaryName m ∧ pre = [.declare c.token (temporaryName m) none [] none] ∧
      m' = m + 1 ∧ conditionalGap? c = none := by
  rw [reserve, run_bind_ok (run_fresh m), run_bind_ok (run_emit _ _)] at h
  split at h
  · cases h
  · next hgap =>
    cases h
    exact ⟨rfl, rfl, rfl, hgap⟩

/-- What the tail has done with a value where the block goes on. -/
def Tail.Holds (tail : Tail) (v : Value α) (t : Temporaries α) : Prop :=
  ∀ temp, tail = .store temp → t temp = v

/-- How the tail ends a block that has a value. -/
def Tail.Leaves (tail : Tail) (v : Value α) (e : Ending α) : Prop :=
  tail = .give ∧ e = .ret (some v)

/-- If the tail stores, it stores in a temporary from a number on. -/
def Tail.From (first : Nat) (tail : Tail) : Prop :=
  ∀ temp, tail = .store temp → ∃ k ≥ first, temp = temporaryName k

/-- If the tail stores, no value is missing. -/
def Tail.Fits (tail : Tail) (gap : Option Nat) : Prop := ∀ temp, tail = .store temp → gap = none

/-- A temporary that is declared has no value yet. -/
theorem blockFrom_declare (token k : Nat) (last : Value α) (s : σ) (t : Temporaries α) :
    (withTemporaries I).blockFrom .strict turns last [.declare token (temporaryName k) none [] none]
      (s, t) = .ok I.void (s, t) := by
  rw [Interpretation.blockFrom_singleton, Interpretation.statement]
  change EStateM.Result.ok I.void ((withTemporaries I).declare (temporaryName k) none none (s, t)) = _
  simp only [withTemporaries, temporary?_temporaryName]

/-- What is written for a conditional follows it. -/
def ConditionalFollows (c : Conditional) : Prop :=
  ∀ ⦃depth tail m m' pre lo⦄, (flattenConditional depth tail c).run m = ⟨.ok (), pre, m'⟩ →
    IsSource c.paths → lo ≤ m → tail.From lo → tail.Fits (conditionalGap? c) → ∀ s t last,
      Follows lo t (fun v _ t' => tail.Holds v t') tail.Leaves (I.conditional .strict turns c s)
        ((withTemporaries I).blockFrom .strict turns last pre (s, t))

/-- What is written for a conditional whose value is wanted follows it, and its value is in a
temporary afterwards. -/
theorem ConditionalFollows.store {c : Conditional} (h : ConditionalFollows I turns c)
    {depth k m m' : Nat} {pre : Block}
    (hr : (flattenConditional depth (.store (temporaryName k)) c).run m = ⟨.ok (), pre, m'⟩)
    (hs : IsSource c.paths) (hk : k ≤ m) (hgap : conditionalGap? c = none) (s : σ)
    (t : Temporaries α) (last : Value α) :
    Follows k t (fun v _ t' => t' (temporaryName k) = v) Never (I.conditional .strict turns c s)
      ((withTemporaries I).blockFrom .strict turns last pre (s, t)) := by
  refine (h hr hs hk ?_ (fun _ _ => hgap) s t last).imp (fun v _ t' hv => hv _ rfl) ?_
  · rintro _ ⟨rfl⟩
    exact ⟨k, Nat.le_refl k, rfl⟩
  · rintro v e ⟨htail, -⟩
    cases htail

/-- What is written in front of an expression, and then what is left of it, follow the operands that
are on the stack and the nodes that come after them. -/
def NodesFollow (nodes : Expr) : Prop :=
  ∀ ⦃depth operands m m' lo pre e⦄, (hoistFrom depth operands nodes).run m = ⟨.ok e, pre, m'⟩ →
    Ready m operands → Expr.depthAfter operands.length nodes = some 1 → lo ≤ m →
    (e.IsComplete ∧ ∀ n ∈ e, Flat m' n) ∧ ∀ s t last,
      Follows lo t (fun vs ws _ => vs = ws) Never
        ((do
          let vs ← given t ((withTemporaries I).values turns [] (nodesOnStack operands))
          I.values turns vs nodes) s)
        ((do
          let _ ← (withTemporaries I).blockFrom .strict turns last pre
          (withTemporaries I).values turns [] e) (s, t))

theorem nodesFollow_nil : NodesFollow I turns [] := by
  intro depth operands m m' lo pre e h ho hd hlo
  rw [hoistFrom] at h
  cases h
  obtain ⟨e, rfl⟩ := List.length_eq_one_iff.mp (Option.some.inj hd)
  have he : nodesOnStack [e] = e := by simp [nodesOnStack]
  refine ⟨by rw [he]; exact ho e List.mem_cons_self, fun s t last => ?_⟩
  have hq : Follows lo t _ Never _ _ := Follows.of_quiet (quiet_values I turns ho.flat []) s
  simpa only [Interpretation.values, Interpretation.blockFrom, bind_pure, pure_bind] using
    hq.imp (fun _ _ _ hv => hv.1) fun _ _ he => he

/-- A node that is no conditional joins the operands that it takes. -/
theorem NodesFollow.cons {n : Node} {rest : Expr} (hr : NodesFollow I turns rest)
    (hcond : n.isConditional = false) (hs : IsSource n.paths) : NodesFollow I turns (n :: rest) := by
  intro depth operands m m' lo pre e h ho hd hlo
  rw [hoistFrom_cons hcond] at h
  rw [Expr.depthAfter] at hd
  split at hd
  · cases hd
  next hn =>
  have hp : Ready m (pushNode operands n) :=
    ho.pushNode (Nat.not_lt.mp hn) (IsSource.flat hs hcond m)
  have hl : (pushNode operands n).length = operands.length - n.operands + 1 := by
    rw [pushNode, List.length_cons, List.length_drop]
  obtain ⟨he, hf⟩ := hr h hp (by rw [hl]; exact hd) hlo
  refine ⟨he, fun s t last => ?_⟩
  have hn₁ : ∀ n' ∈ [n], n'.isConditional = false := by simpa using hcond
  have hs₁ : IsSource (Expr.paths [n]) := by simpa [Expr.paths] using hs
  have hv := hf s t last
  simp only [nodesOnStack_pushNode, Interpretation.values_append,
    (quiet_values I turns ho.flat []).given_bind, given_values I turns hn₁ hs₁, bind_assoc] at hv
  simp only [← Interpretation.values_append, List.singleton_append] at hv
  exact hv

/-- A conditional is run in front, after the operands that come before it. -/
theorem NodesFollow.cond {c : Conditional} {rest : Expr} (hr : NodesFollow I turns rest)
    (hc : ConditionalFollows I turns c) (hs : IsSource c.paths) :
    NodesFollow I turns (.cond c :: rest) := by
  intro depth operands m m' lo pre e h ho hd hlo
  rw [hoistFrom] at h
  obtain ⟨spilled, pre₁, m₁, _, h₁, hrun₁, rfl⟩ := run_bind_eq_ok h
  obtain ⟨temp, pre₂, m₂, _, h₂, hrun₂, rfl⟩ := run_bind_eq_ok hrun₁
  obtain ⟨_, pre₃, m₃, pre₄, h₃, h₄, rfl⟩ := run_bind_eq_ok hrun₂
  obtain ⟨rfl, rfl, rfl, hgap⟩ := run_reserve_eq_ok h₂
  have hm₁ := (grows_spill c.token operands).le h₁
  have hm₃ := (grows_flattenConditional depth c _).le h₃
  obtain ⟨hready, hl, hspill⟩ := spill_follows I turns h₁ ho
  have hvar : ∀ n ∈ [Node.var c.token [temporaryName m₁] none], Flat m₃ n :=
    List.forall_mem_singleton.mpr (Flat.temporary (by omega) _ _)
  have hd' : Expr.depthAfter ([Node.var c.token [temporaryName m₁] none] :: spilled).length rest =
      some 1 := by
    rw [List.length_cons, hl]
    exact hd
  have hready₃ := hready.mono (show m₁ ≤ m₃ by omega)
  obtain ⟨he, hrest⟩ := hr h₄ (hready₃.cons rfl hvar) hd' (show m₁ ≤ m₃ by omega)
  refine ⟨he, fun s t last => ?_⟩
  rw [Interpretation.blockFrom_append, bind_assoc]
  refine ((hspill s t last).since hlo (Keeps.refl lo t)).bind ?_
  intro vs w s₁ t₁ hk₁ hvs
  rw [Interpretation.values_cond, Interpretation.blockFrom_append, bind_assoc]
  rw [bind_ok (blockFrom_declare I turns c.token m₁ w s₁ t₁)]
  rw [Interpretation.blockFrom_append, bind_assoc]
  refine Follows.since ?_ (show lo ≤ m₁ by omega) hk₁
  refine (hc.store I turns h₃ hs (Nat.le_succ m₁) hgap s₁ t₁ _).bind ?_
  intro v w' s₃ t₃ hk₃ hv
  have hvs₃ : given t₃ ((withTemporaries I).values turns []
      (nodesOnStack ([Node.var c.token [temporaryName m₁] none] :: spilled))) = pure (v :: vs) := by
    refine given_nodesOnStack_cons I turns hready₃ rfl hvar ?_ ?_
    · rw [given_temporary, hv]
    · rw [(quiet_values I turns hready.flat []).given_eq hk₃, hvs]
  have hgo := hrest s₃ t₃ w'
  rw [hvs₃, pure_bind] at hgo
  exact hgo.since (Nat.le_refl m₁) hk₃

/-- Hoisting follows an expression whose conditionals are followed. -/
theorem nodesFollow {nodes : Expr} (hc : ∀ c, .cond c ∈ nodes → ConditionalFollows I turns c)
    (hs : IsSource (Expr.paths nodes)) : NodesFollow I turns nodes := by
  induction nodes with
  | nil => exact nodesFollow_nil I turns
  | cons n rest ih =>
    rw [IsSource, Expr.paths, List.forall_mem_append] at hs
    have hr := ih (fun c hm => hc c (List.mem_cons_of_mem _ hm)) hs.2
    cases hn : n.isConditional with
    | false => exact hr.cons I turns hn hs.1
    | true =>
      obtain ⟨c, rfl⟩ := exists_cond_of_isConditional hn
      exact hr.cond I turns (hc c List.mem_cons_self) hs.1

end FrontEnd.ControlFlow
