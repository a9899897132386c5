import FrontEnd.Proofs.ControlFlow.Items
import FrontEnd.Proofs.Initialization.Soundness
import FrontEnd.Proofs.References.Flattening
import Mathlib.Data.List.Nodup

/-!
# What flattening writes keeps to the rules

The temporaries that a computation declares are those that it hands out. It assigns the one
that it is told to store in, and reads its own only after they have a value. The body of
a loop is written before the condition, but comes after it, and then more temporaries are
in scope than the body uses.
-/

namespace FrontEnd

open ControlFlow (temporary? Tail)

/-- An expression without conditionals declares nothing. -/
theorem Expr.IsFlat.temporaries {e : Expr} (h : e.IsFlat) :
    temporariesOf (Expr.mentions e) = [] := by
  induction e with
  | nil => rfl
  | cons n rest ih =>
    rw [IsFlat, containsConditional, List.any_cons, Bool.or_eq_false_iff] at h
    rw [Expr.mentions_cons, temporariesOf_append, ih h.2, List.append_nil]
    cases n with
    | cond => cases h.1
    | _ => rw [Node.mentions]; rfl

theorem Expr.paths_append (e e' : Expr) : Expr.paths (e ++ e') = Expr.paths e ++ Expr.paths e' := by
  induction e with
  | nil => rfl
  | cons n rest ih => rw [List.cons_append, Expr.paths, Expr.paths, ih, List.append_assoc]

theorem Scope.Allows.append {σ : Scope} {e e' : Expr} (h : σ.Allows e) (h' : σ.Allows e') :
    σ.Allows (e ++ e') := by
  rw [Allows, Expr.paths_append]
  exact TemporariesIn.append h h'

/-- An operand that can be put into a temporary. -/
structure Scope.Operand (σ : Scope) (e : Expr) : Prop where
  ne_nil : e ≠ []
  isFlat : e.IsFlat
  allowed : σ.Allows e

theorem Scope.Operand.mono {σ σ' : Scope} {e : Expr} (h : σ.Operand e) (hσ : σ.Extends σ') :
    σ'.Operand e := ⟨h.ne_nil, h.isFlat, h.allowed.mono hσ⟩

namespace ControlFlow

open Emit

/-- The temporaries that are handed out from one number to another. -/
def temporariesBetween (m m' : Nat) : List String := (List.range' m (m' - m)).map temporaryName

theorem temporariesBetween_self (m : Nat) : temporariesBetween m m = [] := by
  simp [temporariesBetween]

theorem temporariesBetween_succ (m : Nat) : temporariesBetween m (m + 1) = [temporaryName m] := by
  simp [temporariesBetween]

theorem temporariesBetween_append {m m₁ m' : Nat} (h : m ≤ m₁) (h' : m₁ ≤ m') :
    temporariesBetween m m₁ ++ temporariesBetween m₁ m' = temporariesBetween m m' := by
  have hstart : m + 1 * (m₁ - m) = m₁ := by omega
  have hlength : m₁ - m + (m' - m₁) = m' - m := by omega
  have hrange : List.range' m (m₁ - m) ++ List.range' (m + 1 * (m₁ - m)) (m' - m₁) =
      List.range' m (m₁ - m + (m' - m₁)) := List.range'_append
  rw [hstart, hlength] at hrange
  rw [temporariesBetween, temporariesBetween, ← List.map_append, hrange, temporariesBetween]

theorem nodup_temporariesBetween (m m' : Nat) : (temporariesBetween m m').Nodup :=
  List.Nodup.map temporaryName_injective List.nodup_range'

/-- What is written from one number of temporaries to another declares the temporaries between them,
and keeps to the rules from one scope to another. -/
structure Written (σ : Scope) (m m' : Nat) (b : Block) (σ' : Scope) : Prop where
  le : m ≤ m'
  temporaries : (Block.temporaries b).Perm (temporariesBetween m m')
  checks : Block.Checks σ b σ'

namespace Written

variable {σ σ' σ'' : Scope} {m m₁ m' : Nat} {b b' : Block}

theorem nil (σ : Scope) (m : Nat) : Written σ m m [] σ := by
  refine ⟨Nat.le_refl m, ?_, .nil⟩
  rw [Block.temporaries_nil, temporariesBetween_self]

theorem append (h : Written σ m m₁ b σ') (h' : Written σ' m₁ m' b' σ'') :
    Written σ m m' (b ++ b') σ'' := by
  refine ⟨h.le.trans h'.le, ?_, h.checks.append h'.checks⟩
  rw [Block.temporaries_append, ← temporariesBetween_append h.le h'.le]
  exact h.temporaries.append h'.temporaries

/-- A statement that declares no temporary. -/
theorem singleton {s : Statement} (h : s.Checks σ σ') (hs : temporariesOf s.mentions = [])
    (m : Nat) : Written σ m m [s] σ' := by
  refine ⟨Nat.le_refl m, ?_, .singleton h⟩
  rw [Block.temporaries, Block.mentions_cons, Block.mentions_nil, List.append_nil, hs,
    temporariesBetween_self]

/-- A temporary that is declared when it is handed out. -/
theorem declare {value : Expr} (hflat : value.IsFlat) (hvalue : σ.Allows value) (token m : Nat)
    (type : Option ValueType) (slot : Option Nat) :
    Written σ m (m + 1) [.declare token (temporaryName m) type value slot]
      (σ.declare (temporary?_temporaryName m) !value.isEmpty) := by
  refine ⟨Nat.le_succ m, ?_, .singleton (.temporary _ hvalue)⟩
  rw [Block.temporaries, Block.mentions_cons, Block.mentions_nil, List.append_nil,
    Statement.mentions, temporariesOf_append, hflat.temporaries, List.nil_append,
    temporariesBetween_succ, temporariesOf, List.filterMap_cons, Mention.temporary?,
    temporary?_temporaryName]
  exact List.Perm.refl _

theorem cond {token : Nat} {condition : Expr} {onTrue onFalse : Block} {r r' : Bool}
    {σ₁ σ₂ : Scope} {names : Set String} (hflat : condition.IsFlat) (hc : σ.Allows condition)
    (ht : Written σ m m₁ onTrue σ₁) (hf : Written σ m₁ m' onFalse σ₂) (hnames : names ⊆ σ.known)
    (h₁ : names ⊆ σ₁.ready) (h₂ : names ⊆ σ₂.ready) :
    Written σ m m' [.cond (.mk token condition onTrue onFalse r r')] (σ.gain names hnames) := by
  refine ⟨ht.le.trans hf.le, ?_,
    .singleton (.cond hnames (.mk hc ht.checks hf.checks h₁ h₂))⟩
  rw [Block.temporaries, Block.mentions_cons, Block.mentions_nil, List.append_nil,
    Statement.mentions, Conditional.mentions, temporariesOf_append, temporariesOf_append,
    hflat.temporaries, List.nil_append, ← temporariesBetween_append ht.le hf.le]
  exact ht.temporaries.append hf.temporaries

/-- The body of a loop comes after the test of its condition, but is written first. -/
theorem loop {token : Nat} {condition : Expr} (hflat : condition.IsFlat) (hc : σ.Allows condition)
    (hbody : Written σ' m m₁ b' σ'') (htest : Written σ m₁ m' b σ') :
    Written σ m m' [.loop token condition (b ++ b')] σ := by
  refine ⟨hbody.le.trans htest.le, ?_,
    .singleton (.loop hc (htest.checks.append hbody.checks))⟩
  rw [Block.temporaries, Block.mentions_cons, Block.mentions_nil, List.append_nil,
    Statement.mentions, temporariesOf_append, hflat.temporaries, List.nil_append,
    ← temporariesBetween_append hbody.le htest.le]
  change (Block.temporaries (b ++ b')).Perm _
  rw [Block.temporaries_append]
  exact (htest.temporaries.append hbody.temporaries).trans List.perm_append_comm

end Written

/-- A temporary that holds a value is an operand. -/
theorem operand_temporary {σ : Scope} {name : String} (h : name ∈ σ.ready) (token : Nat)
    (binding : Option Binding) : σ.Operand [.var token [name] binding] := by
  refine ⟨List.cons_ne_nil _ _, rfl, ?_⟩
  rw [Scope.Allows, Expr.paths, Expr.paths, Node.paths, List.append_nil]
  exact TemporariesIn.singleton h

/-- An operand that is parked is still an operand. -/
theorem written_park {token m m' : Nat} {operand parked : Expr} {pre : Block} {σ : Scope}
    (h : (park token operand).run m = ⟨.ok parked, pre, m'⟩) (ho : σ.Operand operand) :
    ∃ σ', Written σ m m' pre σ' ∧ σ'.Operand parked := by
  rcases park_cases token operand with ⟨n, rfl, hn, hp⟩ | hp
  · rw [hp] at h
    cases h
    exact ⟨σ, Written.nil σ m, ho⟩
  · rw [hp] at h
    cases h
    refine ⟨_, Written.declare ho.isFlat ho.allowed token m none none, ?_⟩
    have hinit : (!operand.isEmpty) = true := by simpa using ho.ne_nil
    refine operand_temporary ?_ token none
    rw [hinit]
    exact Set.mem_insert _ _

theorem written_spill {token m m' : Nat} {operands spilled : List Expr} {pre : Block} {σ : Scope}
    (h : (spill token operands).run m = ⟨.ok spilled, pre, m'⟩) (ho : ∀ e ∈ operands, σ.Operand e) :
    ∃ σ', Written σ m m' pre σ' ∧ ∀ e ∈ spilled, σ'.Operand e := by
  induction operands generalizing m' spilled pre with
  | nil =>
    cases h
    exact ⟨σ, Written.nil σ m, ho⟩
  | cons operand below ih =>
    rw [List.forall_mem_cons] at ho
    obtain ⟨below', pre₁, m₁, _, h₁, hrest, rfl⟩ := run_bind_eq_ok h
    obtain ⟨parked, pre₂, m₂, _, h₂, hlast, rfl⟩ := run_bind_eq_ok hrest
    cases hlast
    obtain ⟨σ₁, hw₁, hb⟩ := ih h₁ ho.2
    obtain ⟨σ₂, hw₂, hp⟩ := written_park h₂ (ho.1.mono hw₁.checks.grows)
    rw [List.append_nil]
    refine ⟨σ₂, hw₁.append hw₂, List.forall_mem_cons.mpr ⟨hp, fun e he => ?_⟩⟩
    exact (hb e he).mono hw₂.checks.grows

theorem allows_nodesOnStack {σ : Scope} {operands : List Expr} (h : ∀ e ∈ operands, σ.Allows e) :
    σ.Allows (nodesOnStack operands) := by
  induction operands with
  | nil => exact TemporariesIn.nil _
  | cons operand below ih =>
    rw [List.forall_mem_cons] at h
    rw [nodesOnStack_cons]
    exact (ih h.2).append h.1

/-- A node of a source keeps operands what they are. -/
theorem operand_pushNode {σ : Scope} {operands : List Expr} (h : ∀ e ∈ operands, σ.Operand e)
    {n : Node} (hn : n.isConditional = false) (hs : IsSource n.paths) :
    ∀ e ∈ pushNode operands n, σ.Operand e := by
  have hflat := isFlat_pushNode (fun e he => (h e he).isFlat) hn
  rw [pushNode, List.forall_mem_cons] at hflat ⊢
  have hpaths : σ.Allows [n] := by
    rw [Scope.Allows, Expr.paths, Expr.paths, List.append_nil]
    exact TemporariesIn.of_isSource hs _
  have htake : σ.Allows (nodesOnStack (operands.take n.operands)) :=
    allows_nodesOnStack fun e he => (h e (List.mem_of_mem_take he)).allowed
  refine ⟨⟨?_, hflat.1, htake.append hpaths⟩, fun e he => h e (List.mem_of_mem_drop he)⟩
  exact List.append_ne_nil_of_right_ne_nil _ (List.cons_ne_nil _ _)

/-- The temporary that a tail stores in. -/
def Tail.stored (tail : Tail) : Set String := {name | tail = .store name}

theorem Tail.stored_subset_of_fits {tail : Tail} {gap : Nat} (h : tail.Fits (some gap))
    (names : Set String) : tail.stored ⊆ names := fun name hname => nomatch h name hname

theorem Tail.stored_drop_subset (names : Set String) : Tail.drop.stored ⊆ names :=
  fun _ hname => nomatch hname

/-- What is written for a conditional stores its value where the tail says. -/
def ConditionalWritten (c : Conditional) : Prop :=
  ∀ ⦃depth tail m m' pre⦄, (flattenConditional depth tail c).run m = ⟨.ok (), pre, m'⟩ →
    IsSource c.paths → tail.Fits (conditionalGap? c) → ∀ σ : Scope, tail.stored ⊆ σ.known →
    ∃ σ', Written σ m m' pre σ' ∧ tail.stored ⊆ σ'.ready

/-- What is written for a statement stores its value where the tail says. -/
def StatementWritten (s : Statement) : Prop :=
  ∀ token ⦃depth tail m m' pre⦄, (flattenStatement depth tail s).run m = ⟨.ok (), pre, m'⟩ →
    IsSource s.paths → tail.Fits (statementGap? token s) → ∀ σ : Scope, tail.stored ⊆ σ.known →
    ∃ σ', Written σ m m' pre σ' ∧ tail.stored ⊆ σ'.ready

/-- What is written for a block stores its value where the tail says. -/
def BlockWritten (b : Block) : Prop :=
  ∀ token ⦃depth tail m m' pre⦄, (flattenBlock depth tail b).run m = ⟨.ok (), pre, m'⟩ →
    IsSource (Block.paths b) → tail.Fits (blockGap? token b) → ∀ σ : Scope, tail.stored ⊆ σ.known →
    ∃ σ', Written σ m m' pre σ' ∧ tail.stored ⊆ σ'.ready

/-- What is left of an expression reads temporaries that hold a value. -/
theorem written_hoistFrom {nodes : Expr} (hc : ∀ c, .cond c ∈ nodes → ConditionalWritten c)
    (hs : IsSource (Expr.paths nodes)) {depth m m' : Nat} {operands : List Expr} {e : Expr}
    {pre : Block} (h : (hoistFrom depth operands nodes).run m = ⟨.ok e, pre, m'⟩) {σ : Scope}
    (ho : ∀ e ∈ operands, σ.Operand e) :
    ∃ σ', Written σ m m' pre σ' ∧ σ'.Allows e ∧ e.IsFlat := by
  induction nodes generalizing m operands pre σ with
  | nil =>
    rw [hoistFrom] at h
    cases h
    exact ⟨σ, Written.nil σ _, allows_nodesOnStack fun e he => (ho e he).allowed,
      isFlat_nodesOnStack fun e he => (ho e he).isFlat⟩
  | cons n rest ih =>
    rw [IsSource, Expr.paths, List.forall_mem_append] at hs
    have hc' : ∀ c, .cond c ∈ rest → ConditionalWritten c :=
      fun c hm => hc c (List.mem_cons_of_mem _ hm)
    cases hn : n.isConditional with
    | false =>
      rw [hoistFrom_cons hn] at h
      exact ih hc' hs.2 h (operand_pushNode ho hn hs.1)
    | true =>
      obtain ⟨c, rfl⟩ := exists_cond_of_isConditional hn
      rw [hoistFrom] at h
      obtain ⟨spilled, pre₁, m₁, _, h₁, hrun₁, rfl⟩ := run_bind_eq_ok h
      obtain ⟨temp, pre₂, m₂, _, h₂, hrun₂, rfl⟩ := run_bind_eq_ok hrun₁
      obtain ⟨_, pre₃, m₃, pre₄, h₃, h₄, rfl⟩ := run_bind_eq_ok hrun₂
      obtain ⟨rfl, rfl, rfl, hgap⟩ := run_reserve_eq_ok h₂
      obtain ⟨σ₁, hw₁, hspilled⟩ := written_spill h₁ ho
      have hw₂ : Written σ₁ m₁ (m₁ + 1) [.declare c.token (temporaryName m₁) none [] none]
          (σ₁.declare (temporary?_temporaryName m₁) false) :=
        Written.declare (show Expr.IsFlat [] from rfl) (TemporariesIn.nil _) c.token m₁ none none
      have hknown : (Tail.store (temporaryName m₁)).stored ⊆
          (σ₁.declare (temporary?_temporaryName m₁) false).known := by
        rintro _ ⟨rfl⟩
        exact Set.mem_insert _ _
      obtain ⟨σ₃, hw₃, hstored⟩ := hc c List.mem_cons_self h₃ hs.1 (fun _ _ => hgap) _ hknown
      have hgrows := hw₂.checks.grows.trans hw₃.checks.grows
      have hoperands : ∀ e ∈ [.var c.token [temporaryName m₁] none] :: spilled, σ₃.Operand e :=
        List.forall_mem_cons.mpr ⟨operand_temporary (hstored rfl) _ _,
          fun e he => (hspilled e he).mono hgrows⟩
      obtain ⟨σ₄, hw₄, he⟩ := ih hc' hs.2 h₄ hoperands
      exact ⟨σ₄, hw₁.append (hw₂.append (hw₃.append hw₄)), he⟩

/-- A statement that takes a hoisted expression. -/
theorem written_emit {S : Expr → Statement} {depth m m' : Nat} {e : Expr} {pre : Block}
    (hc : ∀ c, .cond c ∈ e → ConditionalWritten c) (hs : IsSource (Expr.paths e))
    (h : (do emit (S (← hoistFrom depth [] e)) : Emit Unit).run m = ⟨.ok (), pre, m'⟩) (σ : Scope)
    {names : Set String}
    (hS : ∀ e' σ₁, e'.IsFlat → σ₁.Allows e' → σ.Extends σ₁ →
      temporariesOf (S e').mentions = [] ∧ ∃ σ', (S e').Checks σ₁ σ' ∧ names ⊆ σ'.ready) :
    ∃ σ', Written σ m m' pre σ' ∧ names ⊆ σ'.ready := by
  obtain ⟨e', before, hr, rfl⟩ := run_emit_hoist_eq_ok h
  obtain ⟨σ₁, hw, hallowed, hflat⟩ := written_hoistFrom hc hs hr (List.forall_mem_nil _)
  obtain ⟨htemps, σ', hchecks, hnames⟩ := hS e' σ₁ hflat hallowed hw.checks.grows
  exact ⟨σ', hw.append (Written.singleton hchecks htemps m'), hnames⟩

theorem statementWritten_declare {token : Nat} {name : String} {type : Option ValueType}
    {value : Expr} {slot : Option Nat} (hc : ∀ c, .cond c ∈ value → ConditionalWritten c) :
    StatementWritten (.declare token name type value slot) := by
  intro _ depth tail m m' pre h hs hfit σ _
  rw [IsSource, Statement.paths, List.forall_mem_cons] at hs
  rw [flattenStatement] at h
  refine written_emit hc hs.2 h σ fun e' σ₁ hflat hallowed _ => ⟨?_, σ₁, .declare hs.1 hallowed,
    Tail.stored_subset_of_fits hfit _⟩
  rw [Statement.mentions, temporariesOf_append, hflat.temporaries, List.nil_append, temporariesOf,
    List.filterMap_cons, Mention.temporary?, hs.1, List.filterMap_nil]

theorem statementWritten_assign {token : Nat} {target : Target} {value : Expr}
    (hc : ∀ c, .cond c ∈ value → ConditionalWritten c) :
    StatementWritten (.assign token target value) := by
  intro _ depth tail m m' pre h hs hfit σ _
  rw [IsSource, Statement.paths, List.forall_mem_cons] at hs
  rw [flattenStatement] at h
  refine written_emit hc hs.2 h σ fun e' σ₁ hflat hallowed _ => ⟨?_, σ₁, .assign hs.1 hallowed,
    Tail.stored_subset_of_fits hfit _⟩
  rw [Statement.mentions, temporariesOf_append, hflat.temporaries]
  rfl

theorem statementWritten_ret {token : Nat} {value : Expr}
    (hc : ∀ c, .cond c ∈ value → ConditionalWritten c) : StatementWritten (.ret token value) := by
  intro _ depth tail m m' pre h hs _ σ hknown
  rw [IsSource, Statement.paths] at hs
  rw [flattenStatement] at h
  refine written_emit hc hs h σ fun e' σ₁ hflat hallowed hgrows => ⟨?_, _,
    .ret (hknown.trans hgrows.known) hallowed, Set.subset_union_right⟩
  rw [Statement.mentions, hflat.temporaries]

theorem statementWritten_eval {token : Nat} {value : Expr}
    (hc : ∀ c, .cond c ∈ value → ConditionalWritten c) : StatementWritten (.eval token value) := by
  intro _ depth tail m m' pre h hs _ σ hknown
  rw [IsSource, Statement.paths] at hs
  by_cases hdrop : ∃ c, tail = .drop ∧ value = [.cond c]
  · obtain ⟨c, rfl, rfl⟩ := hdrop
    rw [flattenStatement] at h
    have hs' : IsSource c.paths := by simpa [IsSource, Expr.paths, Node.paths] using hs
    exact hc c List.mem_cons_self h hs' (Tail.fits_drop _) σ hknown
  · rw [flattenStatement_eval fun c ht hv => hdrop ⟨c, ht, hv⟩] at h
    refine written_emit hc hs h σ fun e' σ₁ hflat hallowed hgrows => ?_
    cases tail with
    | drop =>
      refine ⟨?_, σ₁, .eval hallowed, Tail.stored_drop_subset _⟩
      rw [Tail.statement, Statement.mentions, hflat.temporaries]
    | store name =>
      have hname : {name} ⊆ σ₁.known := by
        rintro _ rfl
        exact hgrows.known (hknown rfl)
      refine ⟨?_, _, .store hname hallowed, ?_⟩
      · rw [Tail.statement, Statement.mentions, temporariesOf_append, hflat.temporaries]
        rfl
      · rintro _ ⟨rfl⟩
        exact .inr rfl
    | give =>
      refine ⟨?_, _, .ret (hknown.trans hgrows.known) hallowed, Set.subset_union_right⟩
      rw [Tail.statement, Statement.mentions, hflat.temporaries]

theorem conditionalWritten {token : Nat} {condition : Expr} {onTrue onFalse : Block} {r r' : Bool}
    (hc : ∀ c, .cond c ∈ condition → ConditionalWritten c) (ht : BlockWritten onTrue)
    (hf : BlockWritten onFalse) : ConditionalWritten (.mk token condition onTrue onFalse r r') := by
  intro depth tail m m' pre h hs hfit σ hknown
  rw [IsSource, Conditional.paths, List.forall_mem_append, List.forall_mem_append] at hs
  obtain ⟨⟨hsc, hst⟩, hsf⟩ := hs
  obtain ⟨e, before, m₁, onTrue', m₂, onFalse', h₁, h₂, h₃, rfl⟩ := run_flattenConditional_eq_ok h
  obtain ⟨σ₁, hw, hallowed, hflat⟩ := written_hoistFrom hc hsc h₁ (List.forall_mem_nil _)
  have hknown₁ := hknown.trans hw.checks.grows.known
  obtain ⟨σ₂, hwt, hready₁⟩ := ht token h₂ hst hfit.blocks.1 σ₁ hknown₁
  obtain ⟨σ₃, hwf, hready₂⟩ := hf token h₃ hsf hfit.blocks.2 σ₁ hknown₁
  exact ⟨_, hw.append (Written.cond hflat hallowed hwt hwf hknown₁ hready₁ hready₂),
    Set.subset_union_right⟩

theorem statementWritten_loop {token : Nat} {condition : Expr} {body : Block}
    (hc : ∀ c, .cond c ∈ condition → ConditionalWritten c) (hb : BlockWritten body) :
    StatementWritten (.loop token condition body) := by
  intro _ depth tail m m' pre h hs hfit σ _
  rw [IsSource, Statement.paths, List.forall_mem_append] at hs
  rw [flattenStatement] at h
  obtain ⟨body', m₁, h₁, hrest⟩ := run_capture_bind_eq_ok h
  have hbody := fun σ => hb token h₁ hs.2 (Tail.fits_drop _) σ (Tail.stored_drop_subset _)
  split at hrest
  · obtain ⟨test, m₂, h₂, hemit⟩ := run_capture_bind_eq_ok hrest
    cases hemit
    obtain ⟨e', before, hr, rfl⟩ := run_emit_hoist_eq_ok h₂
    have hstart : ∀ e ∈ ([] : List Expr), σ.Operand e := List.forall_mem_nil _
    obtain ⟨σ₁, hw, hallowed, hflat⟩ := written_hoistFrom hc hs.1 hr hstart
    have hexit : (exitUnless token e').Checks σ₁ (σ₁.gain ∅ (Set.empty_subset _)) := by
      refine .cond _ (.mk ?_ (.singleton (.exit (Set.empty_subset _))) .nil (Set.empty_subset _)
        (Set.empty_subset _))
      exact hallowed.append (TemporariesIn.nil _)
    have htest := hw.append (Written.singleton hexit (by
      rw [mentions_exitUnless, hflat.temporaries]) _)
    obtain ⟨σ₂, hwb, -⟩ := hbody (σ₁.gain ∅ (Set.empty_subset _))
    exact ⟨σ, Written.loop rfl (TemporariesIn.nil _) hwb htest,
      Tail.stored_subset_of_fits hfit _⟩
  · next hcond =>
    cases hrest
    obtain ⟨σ₂, hwb, -⟩ := hbody σ
    have hflat : Expr.IsFlat condition := Bool.eq_false_iff.mpr hcond
    exact ⟨σ, Written.loop (b := []) hflat (TemporariesIn.of_isSource hs.1 _) hwb
      (Written.nil σ m'), Tail.stored_subset_of_fits hfit _⟩

theorem statementWritten_exit (token amount : Nat) : StatementWritten (.exit token amount) := by
  intro _ depth tail m m' pre h _ _ σ hknown
  rw [flattenStatement] at h
  split at h
  · cases h
  · cases h
    exact ⟨_, Written.singleton (.exit hknown) (by rw [Statement.mentions]; rfl) m,
      Set.subset_union_right⟩

theorem statementWritten_next (token : Nat) : StatementWritten (.next token) := by
  intro _ depth tail m m' pre h _ _ σ hknown
  rw [flattenStatement] at h
  split at h
  · cases h
  · cases h
    exact ⟨_, Written.singleton (.next hknown) (by rw [Statement.mentions]; rfl) m,
      Set.subset_union_right⟩

theorem statementWritten_cond {c : Conditional} (hc : ConditionalWritten c) :
    StatementWritten (.cond c) := by
  intro _ depth tail m m' pre h hs hfit σ hknown
  rw [flattenStatement] at h
  rw [Statement.paths] at hs
  exact hc h hs hfit.cond σ hknown

theorem blockWritten_nil : BlockWritten [] := by
  intro _ depth tail m m' pre h _ hfit σ _
  rw [flattenBlock] at h
  cases h
  rw [blockGap?] at hfit
  exact ⟨σ, Written.nil σ m, Tail.stored_subset_of_fits hfit _⟩

/-- The tail is that of the last statement. -/
theorem BlockWritten.cons {s : Statement} {rest : Block} (hs : StatementWritten s)
    (hr : BlockWritten rest) : BlockWritten (s :: rest) := by
  intro token depth tail m m' pre h hsource hfit σ hknown
  rw [IsSource, Block.paths, List.forall_mem_append] at hsource
  rw [flattenBlock] at h
  obtain ⟨_, first, m₁, more, h₁, h₂, rfl⟩ := run_bind_eq_ok h
  rw [blockGap?] at hfit
  cases rest with
  | nil =>
    rw [flattenBlock] at h₂
    cases h₂
    rw [List.append_nil]
    exact hs token h₁ hsource.1 hfit σ hknown
  | cons s' rest =>
    obtain ⟨σ₁, hw, -⟩ := hs token h₁ hsource.1 (Tail.fits_drop _) σ (Tail.stored_drop_subset _)
    obtain ⟨σ₂, hw', hready⟩ := hr token h₂ hsource.2 hfit σ₁ (hknown.trans hw.checks.grows.known)
    exact ⟨σ₂, hw.append hw', hready⟩

mutual

theorem conditionals_written : ∀ (nodes : List Node) (c : Conditional), .cond c ∈ nodes →
    ConditionalWritten c
  | .cond c :: rest, c', hc => by
    rcases List.mem_cons.mp hc with heq | hr
    · cases heq
      exact conditional_written c
    · exact conditionals_written rest c' hr
  | .int .. :: rest, c', hc | .float .. :: rest, c', hc | .bool .. :: rest, c', hc
  | .var .. :: rest, c', hc | .op .. :: rest, c', hc | .call .. :: rest, c', hc =>
    conditionals_written rest c' (by simpa using hc)

theorem conditional_written : ∀ c : Conditional, ConditionalWritten c
  | .mk _ condition onTrue onFalse _ _ =>
    conditionalWritten (conditionals_written condition) (block_written onTrue)
      (block_written onFalse)

theorem statement_written : ∀ s : Statement, StatementWritten s
  | .declare _ _ _ value _ => statementWritten_declare (conditionals_written value)
  | .assign _ _ value => statementWritten_assign (conditionals_written value)
  | .eval _ value => statementWritten_eval (conditionals_written value)
  | .ret _ value => statementWritten_ret (conditionals_written value)
  | .cond c => statementWritten_cond (conditional_written c)
  | .loop _ condition body =>
    statementWritten_loop (conditionals_written condition) (block_written body)
  | .exit token amount => statementWritten_exit token amount
  | .next token => statementWritten_next token

/-- What is written for a block of a source keeps to the rules. -/
theorem block_written : ∀ b : List Statement, BlockWritten b
  | [] => blockWritten_nil
  | s :: rest => BlockWritten.cons (statement_written s) (block_written rest)

end

end ControlFlow

end FrontEnd
