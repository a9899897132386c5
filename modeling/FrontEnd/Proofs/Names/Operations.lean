import FrontEnd.Names.Scopes
import Mathlib.Data.List.DropRight
import Mathlib.Data.List.Induction

/-!
# Slots after a sequence of operations

Functions start and end, scopes open and close, and locals are declared, in any order. Closing
a scope gives no slot back, so the slots of a function are numbered without gaps, in the order
in which its locals were declared. The entries of the open scopes are slots of locals with the
names of the entries.
-/

namespace FrontEnd.Names.Scopes

/-- What can be done while functions are read. -/
inductive Operation where
  | start
  | descend
  | ascend
  | declare (v : Variable)
  | finish
  deriving DecidableEq, Repr

namespace Operation

/-- Whether the function that is read stays the same. -/
def isInside : Operation → Bool
  | descend | ascend | declare _ => true
  | start | finish => false

/-- How many scopes are open after an operation. -/
def depth (n : Nat) : Operation → Nat
  | start => 1
  | descend => n + 1
  | ascend => n - 1
  | declare _ => n
  | finish => 0

end Operation

/-- The slot that the declaration of a local returns. -/
def slotFor? (s : Scopes) (v : Variable) : Option Nat :=
  (s.declare? v.name v.type v.isParam).map (·.1)

/-- The scopes after an operation. A declaration that fails leaves them as they are. -/
def perform (s : Scopes) : Operation → Scopes
  | .start => s.start
  | .descend => s.descend
  | .ascend => s.ascend
  | .declare v => ((s.declare? v.name v.type v.isParam).map (·.2)).getD s
  | .finish => s.finish.2

/-- The scopes after some operations. -/
def run (s : Scopes) (operations : List Operation) : Scopes := operations.foldl perform s

/-- The scopes after some operations, of which none was open before the first. -/
def after (operations : List Operation) : Scopes := closed.run operations

/-- How many scopes are open after some operations. -/
def depthAfter (operations : List Operation) : Nat := operations.foldl Operation.depth 0

/-- The local that an operation declares, with the slot that is returned. -/
def declared? (s : Scopes) : Operation → Option (Nat × Variable)
  | .declare v => (s.slotFor? v).map fun slot => (slot, v)
  | .start | .descend | .ascend | .finish => none

/-- The locals that operations declare one after the other, each with its slot. -/
def declaredFrom : Scopes → List Operation → List (Nat × Variable)
  | _, [] => []
  | s, op :: rest => (s.declared? op).toList ++ declaredFrom (s.perform op) rest

/-- What has been declared since a function was last started or ended. -/
def declarations (operations : List Operation) : List (Nat × Variable) :=
  declaredFrom (after (operations.rdropWhile (·.isInside))) (operations.rtakeWhile (·.isInside))

variable {s : Scopes} {op : Operation} {v : Variable} {slot : Nat}

/-! ## One operation -/

/-- A local is declared if some scope is open and the innermost one does not have its name, and gets
the next slot. Otherwise nothing changes. -/
theorem declare_cases (s : Scopes) (v : Variable) :
    (s.slotFor? v = none ∧ s.perform (.declare v) = s ∧
      ∀ scope outer, s.scopes = scope :: outer → (scope.lookup v.name).isSome) ∨
    (∃ scope outer, s.scopes = scope :: outer ∧ scope.lookup v.name = none ∧
      s.slotFor? v = some s.locals.length ∧
      s.perform (.declare v) =
        ⟨((v.name, s.locals.length) :: scope) :: outer, s.locals ++ [v]⟩) := by
  obtain ⟨hnone, hfull⟩ | ⟨scope, outer, hscopes, hfree, hdeclared⟩ :=
    declare?_cases s v.name v.type v.isParam
  · refine .inl ⟨?_, ?_, hfull⟩
    · rw [slotFor?, hnone, Option.map_none]
    · rw [perform, hnone, Option.map_none, Option.getD_none]
  · refine .inr ⟨scope, outer, hscopes, hfree, ?_, ?_⟩
    · rw [slotFor?, hdeclared, Option.map_some]
    · rw [perform, hdeclared, Option.map_some, Option.getD_some]

theorem depth_perform (s : Scopes) (op : Operation) : (s.perform op).depth = op.depth s.depth := by
  cases op with
  | start | descend | finish => rfl
  | ascend => exact List.length_drop
  | declare v =>
    obtain ⟨-, hsame, -⟩ | ⟨scope, outer, hscopes, -, -, hperform⟩ := declare_cases s v
    · rw [hsame, Operation.depth]
    · rw [hperform, Operation.depth, depth, depth, hscopes, List.length_cons, List.length_cons]

/-- Within a function an operation adds the local that it declares, and takes none away. -/
theorem locals_perform (s : Scopes) (h : op.isInside) :
    (s.perform op).locals = s.locals ++ ((s.declared? op).map (·.2)).toList := by
  cases op with
  | start | finish => cases h
  | descend | ascend => exact (List.append_nil _).symm
  | declare v =>
    obtain ⟨hnone, hsame, -⟩ | ⟨scope, outer, -, -, hslot, hperform⟩ := declare_cases s v
    · rw [hsame, declared?, hnone]
      exact (List.append_nil _).symm
    · rw [hperform, declared?, hslot]
      rfl

theorem slotFor?_eq_some (h : s.slotFor? v = some slot) : slot = s.locals.length := by
  obtain ⟨hnone, -⟩ | ⟨_, _, -, -, hslot, -⟩ := declare_cases s v
  · cases hnone.symm.trans h
  · exact Option.some.inj (h.symm.trans hslot)

theorem slot_of_declared? {entry : Nat × Variable} (h : s.declared? op = some entry) :
    entry.1 = s.locals.length := by
  cases op with
  | start | descend | ascend | finish => cases h
  | declare v =>
    obtain ⟨slot, hslot, rfl⟩ := Option.map_eq_some_iff.mp h
    exact slotFor?_eq_some hslot

theorem locals_perform_of_not_inside (s : Scopes) (h : ¬op.isInside) :
    (s.perform op).locals = [] := by
  cases op with
  | start | finish => rfl
  | descend | ascend | declare => exact absurd rfl h

/-! ## A sequence of operations -/

theorem run_append (s : Scopes) (first second : List Operation) :
    s.run (first ++ second) = (s.run first).run second := List.foldl_append

theorem after_append (first second : List Operation) :
    after (first ++ second) = (after first).run second := run_append closed first second

theorem after_concat (operations : List Operation) (op : Operation) :
    after (operations ++ [op]) = (after operations).perform op := after_append operations [op]

/-- What one operation after the other keeps holds after all of them. -/
theorem after_induction {P : List Operation → Scopes → Prop} (empty : P [] closed)
    (step : ∀ operations op, P operations (after operations) →
      P (operations ++ [op]) ((after operations).perform op))
    (operations : List Operation) : P operations (after operations) := by
  induction operations using List.reverseRecOn with
  | nil => exact empty
  | append_singleton operations op ih =>
    rw [after_concat]
    exact step operations op ih

theorem depthAfter_concat (operations : List Operation) (op : Operation) :
    depthAfter (operations ++ [op]) = op.depth (depthAfter operations) := List.foldl_concat ..

theorem depth_after (operations : List Operation) :
    (after operations).depth = depthAfter operations := by
  refine after_induction (P := fun operations s => s.depth = depthAfter operations) rfl
    (fun operations op ih => ?_) operations
  rw [depth_perform, ih, depthAfter_concat]

/-! ## Slots -/

theorem declaredFrom_concat (s : Scopes) (operations : List Operation) (op : Operation) :
    declaredFrom s (operations ++ [op]) =
      declaredFrom s operations ++ ((s.run operations).declared? op).toList := by
  induction operations generalizing s with
  | nil => exact List.append_nil _
  | cons first rest ih =>
    rw [List.cons_append, declaredFrom, declaredFrom, ih, List.append_assoc]
    rfl

theorem declarations_concat_of_inside (operations : List Operation) (h : op.isInside) :
    declarations (operations ++ [op]) =
      declarations operations ++ ((after operations).declared? op).toList := by
  unfold declarations
  rw [List.rdropWhile_concat_pos _ _ _ h, List.rtakeWhile_concat_pos _ _ _ h, declaredFrom_concat,
    ← after_append, List.rdropWhile_append_rtakeWhile]

theorem declarations_concat_of_not_inside (operations : List Operation) (h : ¬op.isInside) :
    declarations (operations ++ [op]) = [] := by
  unfold declarations
  rw [List.rtakeWhile_concat_neg _ _ _ h, declaredFrom]

/-- The locals of a function are those that have been declared in it, in their order. -/
theorem map_declarations (operations : List Operation) :
    (declarations operations).map Prod.snd = (after operations).locals := by
  refine after_induction (P := fun operations s =>
    (declarations operations).map Prod.snd = s.locals) rfl (fun operations op ih => ?_) operations
  by_cases hinside : op.isInside
  · rw [declarations_concat_of_inside operations hinside, List.map_append, ih,
      locals_perform _ hinside]
    cases (after operations).declared? op <;> rfl
  · rw [declarations_concat_of_not_inside operations hinside,
      locals_perform_of_not_inside _ hinside, List.map_nil]

theorem length_declarations (operations : List Operation) :
    (declarations operations).length = (after operations).locals.length := by
  rw [← map_declarations, List.length_map]

/-- The slots of a function are numbered from zero on in the order of the declarations. -/
theorem slots_declarations (operations : List Operation) :
    (declarations operations).map Prod.fst = List.range (after operations).locals.length := by
  refine after_induction (P := fun operations s =>
    (declarations operations).map Prod.fst = List.range s.locals.length) rfl
    (fun operations op ih => ?_) operations
  by_cases hinside : op.isInside
  · rw [declarations_concat_of_inside operations hinside, List.map_append, ih,
      locals_perform _ hinside, List.length_append]
    cases hdeclared : (after operations).declared? op with
    | none => exact List.append_nil _
    | some entry =>
      change _ ++ [entry.1] = List.range (_ + 1)
      rw [List.range_succ, slot_of_declared? hdeclared]
  · rw [declarations_concat_of_not_inside operations hinside,
      locals_perform_of_not_inside _ hinside]
    rfl

/-! ## What the open scopes hold -/

/-- The entries of a scope are slots of locals of their names, and no two have the same name. -/
structure Indexes (scope : Scope) (locals : List Variable) : Prop where
  distinct : (scope.map Prod.fst).Nodup
  named : ∀ name slot, (name, slot) ∈ scope → ∃ v, locals[slot]? = some v ∧ v.name = name

theorem indexes_nil (locals : List Variable) : Indexes [] locals := ⟨.nil, nofun⟩

namespace Indexes

variable {scope : Scope} {locals : List Variable}

/-- Further locals make no difference to the slots of those before. -/
theorem append (h : Indexes scope locals) (more : List Variable) :
    Indexes scope (locals ++ more) := by
  refine ⟨h.distinct, fun name slot hentry => ?_⟩
  obtain ⟨v, hv, hname⟩ := h.named name slot hentry
  obtain ⟨hlt, -⟩ := List.getElem?_eq_some_iff.mp hv
  exact ⟨v, by rwa [List.getElem?_append_left hlt], hname⟩

theorem declare (h : Indexes scope locals) (hnone : scope.lookup v.name = none) :
    Indexes ((v.name, locals.length) :: scope) (locals ++ [v]) where
  distinct := by
    rw [List.map_cons, List.nodup_cons]
    refine ⟨fun hmem => ?_, h.distinct⟩
    obtain ⟨entry, hentry, hname⟩ := List.mem_map.mp hmem
    simpa [hname] using List.lookup_eq_none_iff.mp hnone entry hentry
  named name slot hentry := by
    obtain heq | hentry := List.mem_cons.mp hentry
    · cases heq
      exact ⟨v, List.getElem?_concat_length, rfl⟩
    · exact (h.append [v]).named name slot hentry

end Indexes

theorem indexes_perform (h : ∀ scope ∈ s.scopes, Indexes scope s.locals) (op : Operation) :
    ∀ scope ∈ (s.perform op).scopes, Indexes scope (s.perform op).locals := by
  cases op with
  | start => exact List.forall_mem_singleton.mpr (indexes_nil _)
  | descend => exact List.forall_mem_cons.mpr ⟨indexes_nil _, h⟩
  | ascend => exact fun scope hmem => h scope (List.mem_of_mem_drop hmem)
  | finish => nofun
  | declare v =>
    obtain ⟨-, hsame, -⟩ | ⟨scope, outer, hscopes, hnone, -, hperform⟩ := declare_cases s v
    · rwa [hsame]
    · rw [hscopes, List.forall_mem_cons] at h
      rw [hperform, List.forall_mem_cons]
      exact ⟨h.1.declare hnone, fun scope hmem => (h.2 scope hmem).append [v]⟩

theorem indexes_after (operations : List Operation) :
    ∀ scope ∈ (after operations).scopes, Indexes scope (after operations).locals :=
  after_induction (P := fun _ s => ∀ scope ∈ s.scopes, Indexes scope s.locals) nofun
    (fun _ op h => indexes_perform h op) operations

end FrontEnd.Names.Scopes
