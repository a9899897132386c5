import FrontEnd.ControlFlow.Returns
import FrontEnd.Proofs.ControlFlow.Temporaries
import FrontEnd.Proofs.Tree.Mentions
import Mathlib.Data.Set.Insert

/-!
# Scopes of temporaries

Rules under which the temporaries of a block may be used. They follow which temporaries
are in scope, and which of these are known to hold a value. A block in which a path does
not go on may be taken to leave a value in every temporary.
-/

namespace FrontEnd

open ControlFlow (temporary? markStatement markConditional markBlock)

/-- The temporary that is declared, if that is what a mention does. -/
def Mention.temporary? : Mention → Option String
  | .declare _ name _ => ControlFlow.temporary? [name]
  | _ => none

/-- The temporaries that are declared among some mentions. -/
def temporariesOf (ms : List Mention) : List String := ms.filterMap Mention.temporary?

@[simp]
theorem temporariesOf_nil : temporariesOf [] = [] := rfl

@[simp]
theorem temporariesOf_append (ms ms' : List Mention) :
    temporariesOf (ms ++ ms') = temporariesOf ms ++ temporariesOf ms' := List.filterMap_append

/-- The temporaries that a block declares, at any depth. -/
def Block.temporaries (b : Block) : List String := temporariesOf (Block.mentions b)

@[simp]
theorem Block.temporaries_nil : Block.temporaries [] = [] := by
  rw [temporaries, Block.mentions_nil, temporariesOf_nil]

@[simp]
theorem Block.temporaries_append (b b' : Block) :
    Block.temporaries (b ++ b') = Block.temporaries b ++ Block.temporaries b' := by
  rw [temporaries, Block.mentions_append, temporariesOf_append, temporaries, temporaries]

/-- The temporaries among some paths are in a set. -/
def TemporariesIn (names : Set String) (paths : List (List String)) : Prop :=
  ∀ p ∈ paths, ∀ name, temporary? p = some name → name ∈ names

namespace TemporariesIn

variable {names names' : Set String} {paths paths' : List (List String)}

theorem mono (h : TemporariesIn names paths) (hn : names ⊆ names') : TemporariesIn names' paths :=
  fun p hp name hname => hn (h p hp name hname)

theorem append (h : TemporariesIn names paths) (h' : TemporariesIn names paths') :
    TemporariesIn names (paths ++ paths') := fun p hp =>
  (List.mem_append.mp hp).elim (h p) (h' p)

theorem nil (names : Set String) : TemporariesIn names [] := fun _ hp => nomatch hp

theorem of_isSource (h : ControlFlow.IsSource paths) (names : Set String) :
    TemporariesIn names paths := by
  intro p hp name hname
  rw [h p hp] at hname
  cases hname

theorem singleton {name : String} (h : name ∈ names) : TemporariesIn names [[name]] := by
  intro p hp other hother
  rw [List.mem_singleton.mp hp] at hother
  cases ControlFlow.temporary?_eq_some hother
  exact h

end TemporariesIn

/-- The temporaries that are in scope, and those of them that hold a value. -/
structure Scope where
  known : Set String
  ready : Set String
  ready_subset : ready ⊆ known
  temporary : ∀ name ∈ known, temporary? [name] = some name

namespace Scope

/-- No temporary is in scope. -/
def empty : Scope := ⟨∅, ∅, Set.Subset.rfl, fun _ h => h.elim⟩

/-- A temporary comes into scope, with or without a value. -/
def declare (σ : Scope) {name : String} (hname : temporary? [name] = some name)
    (initialized : Bool) : Scope where
  known := insert name σ.known
  ready := if initialized then insert name σ.ready else σ.ready
  ready_subset := by
    split
    · exact Set.insert_subset_insert σ.ready_subset
    · exact σ.ready_subset.trans (Set.subset_insert name σ.known)
  temporary := by
    rintro other (rfl | hother)
    · exact hname
    · exact σ.temporary other hother

/-- Temporaries in scope get a value. -/
def gain (σ : Scope) (names : Set String) (h : names ⊆ σ.known) : Scope :=
  ⟨σ.known, σ.ready ∪ names, Set.union_subset σ.ready_subset h, σ.temporary⟩

/-- An expression that only reads temporaries that hold a value. -/
def Allows (σ : Scope) (e : Expr) : Prop := TemporariesIn σ.ready (Expr.paths e)

/-- What is known is still so later. -/
structure Extends (σ σ' : Scope) : Prop where
  known : σ.known ⊆ σ'.known
  ready : σ.ready ⊆ σ'.ready

theorem Extends.refl (σ : Scope) : σ.Extends σ := ⟨Set.Subset.rfl, Set.Subset.rfl⟩

theorem Extends.trans {σ σ' σ'' : Scope} (h : σ.Extends σ') (h' : σ'.Extends σ'') :
    σ.Extends σ'' := ⟨h.known.trans h'.known, h.ready.trans h'.ready⟩

theorem Allows.mono {σ σ' : Scope} {e : Expr} (h : σ.Allows e) (hσ : σ.Extends σ') :
    σ'.Allows e := TemporariesIn.mono h hσ.ready

theorem extends_declare (σ : Scope) {name : String} (hname : temporary? [name] = some name)
    (initialized : Bool) : σ.Extends (σ.declare hname initialized) := by
  refine ⟨Set.subset_insert name σ.known, ?_⟩
  rw [declare]
  dsimp only
  split
  · exact Set.subset_insert name σ.ready
  · exact Set.Subset.rfl

theorem extends_gain (σ : Scope) (names : Set String) (h : names ⊆ σ.known) :
    σ.Extends (σ.gain names h) := ⟨Set.Subset.rfl, Set.subset_union_left⟩

end Scope

mutual

/-- A statement that uses temporaries as it may. The second scope is the one after it. -/
inductive Statement.Checks : Scope → Statement → Scope → Prop
  | declare {σ : Scope} {token : Nat} {name : String} {type : Option ValueType} {value : Expr}
    {slot : Option Nat} (hname : temporary? [name] = none) (hvalue : σ.Allows value) :
    Statement.Checks σ (.declare token name type value slot) σ
  | temporary {σ : Scope} {token : Nat} {name : String} {type : Option ValueType} {value : Expr}
    {slot : Option Nat} (hname : temporary? [name] = some name) (hvalue : σ.Allows value) :
    Statement.Checks σ (.declare token name type value slot) (σ.declare hname !value.isEmpty)
  | assign {σ : Scope} {token : Nat} {target : Target} {value : Expr}
    (htarget : temporary? target.path = none) (hvalue : σ.Allows value) :
    Statement.Checks σ (.assign token target value) σ
  | store {σ : Scope} {token inner : Nat} {name : String} {binding : Option Binding} {value : Expr}
    (hname : {name} ⊆ σ.known) (hvalue : σ.Allows value) :
    Statement.Checks σ (.assign token ⟨inner, [name], binding⟩ value) (σ.gain {name} hname)
  | eval {σ : Scope} {token : Nat} {value : Expr} (hvalue : σ.Allows value) :
    Statement.Checks σ (.eval token value) σ
  | ret {σ : Scope} {token : Nat} {value : Expr} {names : Set String} (hnames : names ⊆ σ.known)
    (hvalue : σ.Allows value) : Statement.Checks σ (.ret token value) (σ.gain names hnames)
  | cond {σ : Scope} {c : Conditional} {names : Set String} (hnames : names ⊆ σ.known)
    (h : Conditional.Checks σ c names) : Statement.Checks σ (.cond c) (σ.gain names hnames)
  | loop {σ σ' : Scope} {token : Nat} {condition : Expr} {body : Block}
    (hcondition : σ.Allows condition) (hbody : Block.Checks σ body σ') :
    Statement.Checks σ (.loop token condition body) σ
  | exit {σ : Scope} {token amount : Nat} {names : Set String} (hnames : names ⊆ σ.known) :
    Statement.Checks σ (.exit token amount) (σ.gain names hnames)
  | next {σ : Scope} {token : Nat} {names : Set String} (hnames : names ⊆ σ.known) :
    Statement.Checks σ (.next token) (σ.gain names hnames)

/-- A conditional that uses temporaries as it may. The given ones hold a value after it. -/
inductive Conditional.Checks : Scope → Conditional → Set String → Prop
  | mk {σ σ₁ σ₂ : Scope} {token : Nat} {condition : Expr} {onTrue onFalse : Block} {r r' : Bool}
    {names : Set String} (hcondition : σ.Allows condition) (htrue : Block.Checks σ onTrue σ₁)
    (hfalse : Block.Checks σ onFalse σ₂) (h₁ : names ⊆ σ₁.ready) (h₂ : names ⊆ σ₂.ready) :
    Conditional.Checks σ (.mk token condition onTrue onFalse r r') names

/-- A block that uses temporaries as it may. The second scope is the one at its end. -/
inductive Block.Checks : Scope → List Statement → Scope → Prop
  | nil {σ : Scope} : Block.Checks σ [] σ
  | cons {σ σ' σ'' : Scope} {s : Statement} {rest : List Statement}
    (hs : Statement.Checks σ s σ') (hrest : Block.Checks σ' rest σ'') :
    Block.Checks σ (s :: rest) σ''

end

/-- After a statement at least what was known is known. -/
theorem Statement.Checks.grows {σ σ' : Scope} {s : Statement} (h : s.Checks σ σ') :
    σ.Extends σ' := by
  cases h with
  | declare | assign | eval | loop => exact Scope.Extends.refl _
  | temporary => exact Scope.extends_declare _ _ _
  | store hnames | ret hnames | cond hnames | exit hnames | next hnames =>
    exact Scope.extends_gain _ _ hnames

/-- Nothing but what a statement declares comes into scope. -/
theorem Statement.Checks.known_or {σ σ' : Scope} {s : Statement} (h : s.Checks σ σ') :
    ∀ name ∈ σ'.known, name ∈ σ.known ∨ name ∈ temporariesOf s.mentions := by
  intro name hname
  cases h with
  | temporary htemp =>
    rcases Set.mem_insert_iff.mp hname with rfl | hknown
    · refine .inr ?_
      rw [Statement.mentions, temporariesOf_append]
      exact List.mem_append_right _ (List.mem_filterMap.mpr ⟨_, List.mem_singleton_self _, htemp⟩)
    · exact .inl hknown
  | declare | assign | store | eval | ret | cond | loop | exit | next => exact .inl hname

namespace Block.Checks

theorem grows {σ σ' : Scope} {b : Block} (h : Block.Checks σ b σ') : σ.Extends σ' := by
  induction b generalizing σ with
  | nil =>
    cases h
    exact Scope.Extends.refl _
  | cons s rest ih =>
    cases h with
    | cons hs hrest => exact hs.grows.trans (ih hrest)

theorem append {σ σ' σ'' : Scope} {b b' : Block} (h : Block.Checks σ b σ')
    (h' : Block.Checks σ' b' σ'') : Block.Checks σ (b ++ b') σ'' := by
  induction b generalizing σ with
  | nil =>
    cases h
    exact h'
  | cons s rest ih =>
    cases h with
    | cons hs hrest => exact .cons hs (ih hrest)

theorem singleton {σ σ' : Scope} {s : Statement} (h : s.Checks σ σ') : Block.Checks σ [s] σ' :=
  .cons h .nil

end Block.Checks

/-- The temporaries that are in scope after a statement. -/
def Statement.scopeAfter (known : Set String) : Statement → Set String
  | .declare _ name _ _ _ => known ∪ {temp | temporary? [name] = some temp}
  | _ => known

theorem Statement.scopeAfter_subset (known : Set String) (s : Statement) :
    s.scopeAfter known ⊆ known ∪ {name | name ∈ temporariesOf s.mentions} := by
  cases s with
  | declare token name type value slot =>
    refine Set.union_subset_union_right known fun temp htemp => ?_
    change temp ∈ temporariesOf _
    rw [Statement.mentions, temporariesOf_append]
    exact List.mem_append_right _ (List.mem_filterMap.mpr ⟨_, List.mem_singleton_self _, htemp⟩)
  | _ => exact Set.subset_union_left

mutual

/-- A statement reads and assigns no temporary but those that are in scope. -/
def Statement.Scoped (known : Set String) : Statement → Prop
  | .declare _ _ _ value _ | .eval _ value | .ret _ value => TemporariesIn known (Expr.paths value)
  | .assign _ target value =>
    TemporariesIn known (Expr.paths value) ∧ TemporariesIn known [target.path]
  | .cond c => c.Scoped known
  | .loop _ condition body => TemporariesIn known (Expr.paths condition) ∧ Block.Scoped known body
  | .exit _ _ | .next _ => True

/-- Each block of a conditional is nested in the block around it. -/
def Conditional.Scoped (known : Set String) : Conditional → Prop
  | .mk _ condition onTrue onFalse _ _ =>
    TemporariesIn known (Expr.paths condition) ∧ Block.Scoped known onTrue ∧
      Block.Scoped known onFalse

/-- Every temporary that is read or assigned in a block is in scope from the start, or declared
before in the block or in a block around the place. -/
def Block.Scoped (known : Set String) : List Statement → Prop
  | [] => True
  | s :: rest => s.Scoped known ∧ Block.Scoped (s.scopeAfter known) rest

end

theorem Statement.Checks.scopeAfter {σ σ' : Scope} {s : Statement} (h : s.Checks σ σ')
    {known : Set String} (hknown : σ.known ⊆ known) : σ'.known ⊆ s.scopeAfter known := by
  cases h with
  | temporary htemp => exact Set.insert_subset (.inr htemp) (hknown.trans Set.subset_union_left)
  | declare => exact hknown.trans Set.subset_union_left
  | assign | store | eval | ret | cond | loop | exit | next => exact hknown

theorem Scope.Allows.in_known {σ : Scope} {e : Expr} (h : σ.Allows e) {known : Set String}
    (hknown : σ.known ⊆ known) : TemporariesIn known (Expr.paths e) :=
  TemporariesIn.mono h (σ.ready_subset.trans hknown)

mutual

theorem Statement.Checks.scoped : ∀ (s : Statement) {σ σ' : Scope} {known : Set String},
    s.Checks σ σ' → σ.known ⊆ known → s.Scoped known
  | .declare .., _, _, _, h, hknown => by
    cases h with
    | declare _ hvalue | temporary _ hvalue => exact hvalue.in_known hknown
  | .assign .., _, _, _, h, hknown => by
    cases h with
    | assign htarget hvalue =>
      exact ⟨hvalue.in_known hknown,
        TemporariesIn.of_isSource (List.forall_mem_singleton.mpr htarget) _⟩
    | store hname hvalue =>
      exact ⟨hvalue.in_known hknown,
        TemporariesIn.singleton (hknown (hname (Set.mem_singleton _)))⟩
  | .eval .., _, _, _, h, hknown => by
    cases h with
    | eval hvalue => exact hvalue.in_known hknown
  | .ret .., _, _, _, h, hknown => by
    cases h with
    | ret _ hvalue => exact hvalue.in_known hknown
  | .cond c, _, _, _, h, hknown => by
    cases h with
    | cond _ hc => exact Conditional.Checks.scoped c hc hknown
  | .loop _ _ body, _, _, _, h, hknown => by
    cases h with
    | loop hcondition hbody =>
      exact ⟨hcondition.in_known hknown, Block.Checks.scoped body hbody hknown⟩
  | .exit .., _, _, _, _, _ | .next .., _, _, _, _, _ => trivial

theorem Conditional.Checks.scoped : ∀ (c : Conditional) {σ : Scope} {names known : Set String},
    c.Checks σ names → σ.known ⊆ known → c.Scoped known
  | .mk _ _ onTrue onFalse _ _, _, _, _, h, hknown => by
    cases h with
    | mk hcondition htrue hfalse =>
      exact ⟨hcondition.in_known hknown, Block.Checks.scoped onTrue htrue hknown,
        Block.Checks.scoped onFalse hfalse hknown⟩

/-- What is checked is in scope. -/
theorem Block.Checks.scoped : ∀ (b : List Statement) {σ σ' : Scope} {known : Set String},
    Block.Checks σ b σ' → σ.known ⊆ known → Block.Scoped known b
  | [], _, _, _, _, _ => trivial
  | s :: rest, _, _, _, h, hknown => by
    cases h with
    | cons hs hrest =>
      exact ⟨Statement.Checks.scoped s hs hknown,
        Block.Checks.scoped rest hrest (hs.scopeAfter hknown)⟩

end

mutual

theorem Statement.Scoped.paths : ∀ (s : Statement) {known : Set String}, s.Scoped known →
    TemporariesIn (known ∪ {name | name ∈ temporariesOf s.mentions}) s.paths
  | .declare _ name _ value _, known, h => by
    rw [Statement.paths, Statement.mentions, temporariesOf_append]
    intro p hp other hother
    rcases List.mem_cons.mp hp with rfl | hp
    · refine .inr (List.mem_append_right _ (List.mem_filterMap.mpr ?_))
      exact ⟨_, List.mem_singleton_self _, hother⟩
    · exact .inl (h p hp other hother)
  | .assign _ target value, known, h => by
    rw [Statement.paths, ← List.singleton_append]
    exact (h.2.append h.1).mono Set.subset_union_left
  | .eval _ value, known, h | .ret _ value, known, h => by
    rw [Statement.paths]
    exact TemporariesIn.mono h Set.subset_union_left
  | .cond c, known, h => by
    rw [Statement.paths, Statement.mentions]
    exact Conditional.Scoped.paths c h
  | .loop _ condition body, known, h => by
    rw [Statement.paths, Statement.mentions, temporariesOf_append]
    refine (h.1.mono Set.subset_union_left).append ((Block.Scoped.paths body h.2).mono ?_)
    exact Set.union_subset_union_right _ fun _ => List.mem_append_right _
  | .exit .., known, _ | .next .., known, _ => by
    rw [Statement.paths]
    exact TemporariesIn.nil _

theorem Conditional.Scoped.paths : ∀ (c : Conditional) {known : Set String}, c.Scoped known →
    TemporariesIn (known ∪ {name | name ∈ temporariesOf c.mentions}) c.paths
  | .mk _ condition onTrue onFalse _ _, known, h => by
    rw [Conditional.paths, Conditional.mentions, temporariesOf_append, temporariesOf_append]
    obtain ⟨hcondition, htrue, hfalse⟩ := h
    refine ((hcondition.mono Set.subset_union_left).append
      ((Block.Scoped.paths onTrue htrue).mono ?_)).append
        ((Block.Scoped.paths onFalse hfalse).mono ?_)
    · exact Set.union_subset_union_right _ fun _ hm =>
        List.mem_append_left _ (List.mem_append_right _ hm)
    · exact Set.union_subset_union_right _ fun _ => List.mem_append_right _

/-- All temporaries in a block are in scope from the start or declared in it. -/
theorem Block.Scoped.paths : ∀ (b : List Statement) {known : Set String}, Block.Scoped known b →
    TemporariesIn (known ∪ {name | name ∈ Block.temporaries b}) (Block.paths b)
  | [], known, _ => by
    rw [Block.paths]
    exact TemporariesIn.nil _
  | s :: rest, known, h => by
    rw [Block.paths, Block.temporaries, Block.mentions, temporariesOf_append]
    refine ((Statement.Scoped.paths s h.1).mono ?_).append
      ((Block.Scoped.paths rest h.2).mono ?_)
    · exact Set.union_subset_union_right _ fun _ => List.mem_append_left _
    · refine Set.union_subset ((Statement.scopeAfter_subset known s).trans ?_) fun name hm =>
        .inr (List.mem_append_right _ hm)
      exact Set.union_subset_union_right _ fun _ => List.mem_append_left _

end

mutual

theorem Statement.Checks.mark : ∀ (s : Statement) {σ σ' : Scope}, s.Checks σ σ' →
    (markStatement s).1.Checks σ σ'
  | .cond c, _, _, h => by
    cases h with
    | cond hnames hc =>
      rw [markStatement]
      exact .cond hnames (Conditional.Checks.mark c hc)
  | .loop _ _ body, _, _, h => by
    cases h with
    | loop hcondition hbody =>
      rw [markStatement]
      exact .loop hcondition (Block.Checks.mark body hbody)
  | .declare .., _, _, h | .assign .., _, _, h | .eval .., _, _, h | .ret .., _, _, h
  | .exit .., _, _, h | .next .., _, _, h => h

theorem Conditional.Checks.mark : ∀ (c : Conditional) {σ : Scope} {names : Set String},
    c.Checks σ names → (markConditional c).1.Checks σ names
  | .mk _ _ onTrue onFalse _ _, _, _, h => by
    cases h with
    | mk hcondition htrue hfalse h₁ h₂ =>
      rw [markConditional]
      exact .mk hcondition (Block.Checks.mark onTrue htrue) (Block.Checks.mark onFalse hfalse) h₁ h₂

/-- Marks do not change which temporaries are used. -/
theorem Block.Checks.mark : ∀ (b : List Statement) {σ σ' : Scope}, Block.Checks σ b σ' →
    Block.Checks σ (markBlock b).1 σ'
  | [], _, _, h => by
    rw [markBlock]
    exact h
  | s :: rest, _, _, h => by
    cases h with
    | cons hs hrest =>
      rw [markBlock]
      exact .cons (Statement.Checks.mark s hs) (Block.Checks.mark rest hrest)

end

end FrontEnd
