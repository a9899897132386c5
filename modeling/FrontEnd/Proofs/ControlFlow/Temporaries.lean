import FrontEnd.ControlFlow.Normalize
import FrontEnd.Proofs.Meaning.Stack
import FrontEnd.Proofs.Tree.Parts
import Mathlib.Logic.Function.Basic

/-!
# Temporaries beside the store

Temporaries have names that no source can write. So a program that uses them runs on a
store with the values of temporaries beside it, which neither calls nor the variables
of the source can see. A computation is quiet if it only reads temporaries: it does the
same whatever the later ones are.
-/

namespace FrontEnd.ControlFlow

open Emit Meaning

/-- The name of the temporary that a path is, if it is one. -/
def temporary? : List String → Option String
  | [name] => if name.toList.head? == some temporaryMark then some name else none
  | _ => none

@[simp]
theorem temporary?_temporaryName (k : Nat) :
    temporary? [temporaryName k] = some (temporaryName k) := by
  simp [temporary?, temporaryName]

theorem temporary?_eq_some {path : List String} {name : String} (h : temporary? path = some name) :
    path = [name] := by
  unfold temporary? at h
  split at h
  · split at h
    · cases h
      rfl
    · cases h
  · cases h

theorem temporaryName_injective : Function.Injective temporaryName := by
  intro j k h
  have hl := congrArg String.toList h
  simp only [temporaryName, String.toList_append, String.toList_singleton, List.cons_append,
    List.nil_append, List.cons.injEq, true_and] at hl
  have hd : Nat.toDigits 10 j = Nat.toDigits 10 k := by
    rw [← Nat.toList_repr, ← Nat.toList_repr]
    exact hl
  rw [← Nat.ofDigitChars_ten_toDigits (n := j), hd, Nat.ofDigitChars_ten_toDigits]

theorem isTemporary_eq (token : Nat) (path : List String) (binding : Option Binding) :
    isTemporary (.var token path binding) = (temporary? path).isSome := by
  match path with
  | [] | _ :: _ :: _ => rfl
  | [name] =>
    simp only [isTemporary, temporary?]
    split <;> simp_all

/-- The values of temporaries. -/
abbrev Temporaries (α : Type) := String → Value α

variable {α σ β γ : Type}

/-- The interpretation on stores with the values of temporaries beside them. -/
def withTemporaries (I : Interpretation α σ) : Interpretation α (σ × Temporaries α) where
  int := I.int
  float := I.float
  void := I.void
  read path s :=
    match temporary? path with
    | some name => s.2 name
    | none => I.read path s.1
  write path v s :=
    match temporary? path with
    | some name => (s.1, Function.update s.2 name v)
    | none => (I.write path v s.1, s.2)
  declare name type v s :=
    match temporary? [name], v with
    | some name, some v => (s.1, Function.update s.2 name v)
    | some _, none => s
    | none, v => (I.declare name type v s.1, s.2)
  operate := I.operate
  call path arguments s :=
    let (v, store) := I.call path arguments s.1
    (v, store, s.2)
  operate_not := I.operate_not
  operate_and := I.operate_and
  operate_or := I.operate_or

/-- The temporaries whose numbers are below a bound have the same values. -/
def Keeps (bound : Nat) (t t' : Temporaries α) : Prop :=
  ∀ k < bound, t' (temporaryName k) = t (temporaryName k)

namespace Keeps

theorem refl (bound : Nat) (t : Temporaries α) : Keeps bound t t := fun _ _ => rfl

theorem trans {bound : Nat} {t t' t'' : Temporaries α} (h : Keeps bound t t')
    (h' : Keeps bound t' t'') : Keeps bound t t'' := fun k hk => (h' k hk).trans (h k hk)

theorem mono {bound bound' : Nat} {t t' : Temporaries α} (h : Keeps bound t t')
    (hb : bound' ≤ bound) : Keeps bound' t t' := fun k hk => h k (Nat.lt_of_lt_of_le hk hb)

/-- A later temporary may change. -/
theorem update {bound k : Nat} (hk : bound ≤ k) (t : Temporaries α) (v : Value α) :
    Keeps bound t (Function.update t (temporaryName k) v) := by
  intro j hj
  have hne : temporaryName j ≠ temporaryName k := fun h => by
    have := temporaryName_injective h
    omega
  exact Function.update_of_ne hne v t

end Keeps

/-- A result, with temporaries beside its store. -/
def attach (t : Temporaries α) :
    EStateM.Result (Ending α) σ β → EStateM.Result (Ending α) (σ × Temporaries α) β
  | .ok a s => .ok a (s, t)
  | .error e s => .error e (s, t)

/-- A computation that starts from given temporaries and drops those that it ends with. -/
def given (t : Temporaries α) (y : Run α (σ × Temporaries α) β) : Run α σ β := fun s =>
  match y (s, t) with
  | .ok a s => .ok a s.1
  | .error e s => .error e s.1

/-- A computation that only reads temporaries, and only those below a bound. -/
def Quiet (bound : Nat) (y : Run α (σ × Temporaries α) β) : Prop :=
  ∀ t t', Keeps bound t t' → ∀ s, y (s, t') = attach t' (given t y s)

namespace Quiet

variable {bound : Nat}

theorem pure (a : β) : Quiet bound (pure a : Run α (σ × Temporaries α) β) := fun _ _ _ _ => rfl

theorem throw (e : Ending α) : Quiet bound (throw e : Run α (σ × Temporaries α) β) :=
  fun _ _ _ _ => rfl

theorem given_bind {y : Run α (σ × Temporaries α) β} (h : Quiet bound y)
    (f : β → Run α (σ × Temporaries α) γ) (t : Temporaries α) :
    given t (y >>= f) = given t y >>= fun a => given t (f a) := by
  funext s
  rw [given, bind_apply, h t t (Keeps.refl bound t) s, bind_apply]
  cases given t y s <;> rfl

theorem bind {y : Run α (σ × Temporaries α) β} {f : β → Run α (σ × Temporaries α) γ}
    (h : Quiet bound y) (hf : ∀ a, Quiet bound (f a)) : Quiet bound (y >>= f) := by
  intro t t' hk s
  rw [h.given_bind, bind_apply, bind_apply, h t t' hk s]
  cases given t y s with
  | ok a s' => exact hf a t t' hk s'
  | error e s' => rfl

theorem map {y : Run α (σ × Temporaries α) β} (h : Quiet bound y) (f : β → γ) :
    Quiet bound (f <$> y) := by
  rw [← bind_pure_comp]
  exact h.bind fun a => pure _

/-- From temporaries that agree below the bound, the same happens. -/
theorem given_eq {y : Run α (σ × Temporaries α) β} (h : Quiet bound y) {t t' : Temporaries α}
    (hk : Keeps bound t t') : given t' y = given t y := by
  funext s
  rw [given, h t t' hk s]
  cases given t y s <;> rfl

end Quiet

/-- A node that is no conditional and reads no temporary from a bound on. -/
def Flat (bound : Nat) (n : Node) : Prop :=
  n.isConditional = false ∧
    ∀ p ∈ n.paths, ∀ name, temporary? p = some name → ∃ k < bound, name = temporaryName k

theorem Flat.mono {bound bound' : Nat} {n : Node} (h : Flat bound n) (hb : bound ≤ bound') :
    Flat bound' n :=
  ⟨h.1, fun p hp name hn =>
    let ⟨k, hk, he⟩ := h.2 p hp name hn
    ⟨k, Nat.lt_of_lt_of_le hk hb, he⟩⟩

theorem Flat.temporary {bound k : Nat} (h : k < bound) (token : Nat) (binding : Option Binding) :
    Flat bound (.var token [temporaryName k] binding) := by
  refine ⟨rfl, fun p hp name hname => ⟨k, h, ?_⟩⟩
  cases List.mem_singleton.mp hp
  rw [temporary?_temporaryName] at hname
  exact (Option.some.inj hname).symm

/-- Paths that a source may use. -/
def IsSource (paths : List (List String)) : Prop := ∀ p ∈ paths, temporary? p = none

instance (paths : List (List String)) : Decidable (IsSource paths) :=
  inferInstanceAs (Decidable (∀ p ∈ paths, temporary? p = none))

theorem IsSource.flat {n : Node} (h : IsSource n.paths) (hc : n.isConditional = false)
    (bound : Nat) : Flat bound n :=
  ⟨hc, fun p hp name hn => by
    rw [h p hp] at hn
    cases hn⟩

variable (I : Interpretation α σ) (turns : Nat)

theorem quiet_node {bound : Nat} {n : Node} (h : Flat bound n) (vs : List (Value α)) :
    Quiet bound ((withTemporaries I).node .strict turns n (vs.map pure)) := by
  cases n with
  | cond c => cases h.1
  | op token o =>
    rw [Interpretation.node, Interpretation.operator_strict, inOrder_pure]
    exact (Quiet.pure vs).map _
  | call token path arity candidates =>
    rw [Interpretation.node, inOrder_pure]
    refine (Quiet.pure vs).bind fun us => ?_
    intro t t' _ s
    rcases hcall : I.call path us s with ⟨_ | v, s'⟩ <;>
      simp [given, attach, Interpretation.invoke, withTemporaries, hcall]
  | var token path =>
    rw [Interpretation.node]
    intro t t' hk s
    have hread : (withTemporaries I).read path (s, t') = (withTemporaries I).read path (s, t) := by
      cases hp : temporary? path with
      | none => simp [withTemporaries, hp]
      | some name =>
        obtain ⟨k, hkb, rfl⟩ := h.2 path (by simp [Node.paths]) name hp
        simp [withTemporaries, hp, hk k hkb]
    change EStateM.Result.ok ((withTemporaries I).read path (s, t')) (s, t') = _
    rw [hread]
    rfl
  | int | float | bool =>
    rw [Interpretation.node]
    exact Quiet.pure _

theorem quiet_values {bound : Nat} {e : Expr} (h : ∀ n ∈ e, Flat bound n) (vs : List (Value α)) :
    Quiet bound ((withTemporaries I).values turns vs e) := by
  induction e generalizing vs with
  | nil => exact Quiet.pure _
  | cons n rest ih =>
    rw [List.forall_mem_cons] at h
    rcases Nat.lt_or_ge vs.length n.operands with hn | hn
    · rw [Interpretation.values_cons_of_lt _ _ hn]
      exact Quiet.throw _
    · rw [Interpretation.values_cons _ _ hn]
      exact (quiet_node I turns h.1 _).bind fun v => ih h.2 _

/-- A node of a source does not see temporaries. -/
theorem given_node {n : Node} (hc : n.isConditional = false) (h : IsSource n.paths)
    (t : Temporaries α) (vs : List (Value α)) :
    given t ((withTemporaries I).node .strict turns n (vs.map pure)) =
      I.node .strict turns n (vs.map pure) := by
  funext s
  cases n with
  | cond c => cases hc
  | op token o =>
    rw [Interpretation.node, Interpretation.node, Interpretation.operator_strict,
      Interpretation.operator_strict, inOrder_pure, inOrder_pure]
    rfl
  | call token path arity candidates =>
    rw [Interpretation.node, Interpretation.node, inOrder_pure, inOrder_pure, pure_bind, pure_bind]
    rcases hcall : I.call path vs s with ⟨_ | v, s'⟩ <;>
      simp [given, Interpretation.invoke, withTemporaries, hcall]
  | var token path =>
    rw [Interpretation.node, Interpretation.node]
    have hp : temporary? path = none := h path (by simp [Node.paths])
    change EStateM.Result.ok ((withTemporaries I).read path (s, t)) s = .ok (I.read path s) s
    simp [withTemporaries, hp]
  | int | float | bool =>
    rw [Interpretation.node, Interpretation.node]
    rfl

theorem given_values {e : Expr} (hc : ∀ n ∈ e, n.isConditional = false)
    (h : IsSource (Expr.paths e)) (t : Temporaries α) (vs : List (Value α)) :
    given t ((withTemporaries I).values turns vs e) = I.values turns vs e := by
  induction e generalizing vs with
  | nil => rfl
  | cons n rest ih =>
    rw [List.forall_mem_cons] at hc
    rw [IsSource, Expr.paths, List.forall_mem_append] at h
    rcases Nat.lt_or_ge vs.length n.operands with hn | hn
    · rw [Interpretation.values_cons_of_lt _ _ hn, Interpretation.values_cons_of_lt _ _ hn]
      rfl
    · rw [Interpretation.values_cons _ _ hn, Interpretation.values_cons _ _ hn,
        (quiet_node I turns (IsSource.flat h.1 hc.1 0) _).given_bind, given_node I turns hc.1 h.1]
      exact bind_congr fun v => ih hc.2 h.2 _

end FrontEnd.ControlFlow
