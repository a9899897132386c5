import FrontEnd.Proofs.ControlFlow.Temporaries
import FrontEnd.Proofs.Scoping.Referents

/-!
# Names that a source can write

A temporary hides no name that a source can write, and so does not matter to what is found
at the places of a source. A block that declares nothing but temporaries can stand in front
of any other, in whatever scope that is.
-/

namespace FrontEnd

open ControlFlow (temporary? temporary?_temporaryName)
open ControlFlow.Emit (temporaryName)

/-- A place where a name stands that no source can write. -/
def Finding.isTemporary (f : Finding) : Bool := (temporary? [f.name]).isSome

/-- What is found but for the places of temporaries. -/
def sourceFindings (fs : List Finding) : List Finding := fs.filter fun f => !f.isTemporary

@[simp]
theorem sourceFindings_nil : sourceFindings [] = [] := rfl

@[simp]
theorem sourceFindings_append (fs fs' : List Finding) :
    sourceFindings (fs ++ fs') = sourceFindings fs ++ sourceFindings fs' :=
  List.filter_append fs fs'

theorem sourceFindings_singleton {f : Finding} (h : f.isTemporary = true) :
    sourceFindings [f] = [] := by
  rw [sourceFindings, List.filter_cons_of_neg (by simp [h]), List.filter_nil]

theorem sourceFindings_ofPath_temporaryName (referent? : String → Option Referent) (token k : Nat) :
    sourceFindings (Finding.ofPath referent? token [temporaryName k]) = [] :=
  sourceFindings_singleton (by rw [Finding.isTemporary, Finding.name, temporary?_temporaryName]; rfl)

/-- What is found at the places of a source in a block, by the scope that it stands in. -/
def Block.sourceView (b : Block) (σ : NameScope) : List Finding :=
  sourceFindings (Block.findings σ b)

/-- The names that a source can write stand for the same. -/
def AgreeOnSource (referent? referent?' : String → Option Referent) : Prop :=
  ∀ name, temporary? [name] = none → referent? name = referent?' name

/-- Two scopes do not differ in names that a source can write. -/
structure NameScope.Agrees (σ σ' : NameScope) : Prop where
  referent? : AgreeOnSource σ.referent? σ'.referent?
  own : ∀ name, temporary? [name] = none → (name ∈ σ.own ↔ name ∈ σ'.own)

namespace NameScope

/-- The scope after the statements of a block. -/
def afterAll (σ : NameScope) (b : Block) : NameScope := b.foldl after σ

theorem afterAll_append (σ : NameScope) (b b' : Block) :
    σ.afterAll (b ++ b') = (σ.afterAll b).afterAll b' :=
  List.foldl_append

namespace Agrees

variable {σ σ' σ'' : NameScope}

theorem refl (σ : NameScope) : σ.Agrees σ := ⟨fun _ _ => rfl, fun _ _ => Iff.rfl⟩

theorem trans (h : σ.Agrees σ') (h' : σ'.Agrees σ'') : σ.Agrees σ'' :=
  ⟨fun name hname => (h.referent? name hname).trans (h'.referent? name hname),
    fun name hname => (h.own name hname).trans (h'.own name hname)⟩

theorem nested {referent? referent?' : String → Option Referent}
    (h : AgreeOnSource referent? referent?') :
    Agrees ⟨referent?, []⟩ ⟨referent?', []⟩ := ⟨h, fun _ _ => Iff.rfl⟩

theorem declare (h : σ.Agrees σ') (name : String) (referent : Referent) :
    (σ.declare name referent).Agrees (σ'.declare name referent) := by
  refine ⟨fun other hother => ?_, fun other hother => ?_⟩
  · rw [NameScope.declare, NameScope.declare]
    dsimp only
    by_cases heq : other = name
    · rw [heq, Function.update_self, Function.update_self]
    · rw [Function.update_of_ne heq, Function.update_of_ne heq]
      exact h.referent? other hother
  · rw [NameScope.declare, NameScope.declare, List.mem_cons, List.mem_cons, h.own other hother]

/-- A temporary hides no name of a source. -/
theorem declare_temporaryName (σ : NameScope) (k : Nat) (referent : Referent) :
    (σ.declare (temporaryName k) referent).Agrees σ := by
  have hne {name : String} (h : temporary? [name] = none) : name ≠ temporaryName k := by
    rintro rfl
    rw [temporary?_temporaryName] at h
    cases h
  refine ⟨fun name hname => Function.update_of_ne (hne hname) _ _, fun name hname => ?_⟩
  rw [NameScope.declare, List.mem_cons]
  exact or_iff_right (hne hname)

theorem after (h : σ.Agrees σ') (s : Statement) : (σ.after s).Agrees (σ'.after s) := by
  cases s with
  | declare token name => exact h.declare name _
  | _ => exact h

end Agrees

end NameScope

theorem sourceFindings_ofPath_congr {referent? referent?' : String → Option Referent}
    (h : AgreeOnSource referent? referent?') (token : Nat) (path : List String) :
    sourceFindings (Finding.ofPath referent? token path) =
      sourceFindings (Finding.ofPath referent?' token path) := by
  match path with
  | [] | _ :: _ :: _ => rfl
  | [name] =>
    rw [Finding.ofPath, Finding.ofPath]
    cases hname : temporary? [name] with
    | none => rw [h name hname]
    | some =>
      have htemp (referent : Option Referent) :
          (Finding.used token name referent).isTemporary = true := by
        rw [Finding.isTemporary, Finding.name, hname]
        rfl
      rw [sourceFindings_singleton (htemp _), sourceFindings_singleton (htemp _)]

theorem sourceFindings_declared_congr {σ σ' : NameScope} (h : σ.Agrees σ') (token : Nat)
    (name : String) :
    sourceFindings [.declared token name (name ∈ σ.own)] =
      sourceFindings [.declared token name (name ∈ σ'.own)] := by
  cases hname : temporary? [name] with
  | none => simp only [h.own name hname]
  | some =>
    have htemp (taken : Bool) : (Finding.declared token name taken).isTemporary = true := by
      rw [Finding.isTemporary, Finding.name, hname]
      rfl
    rw [sourceFindings_singleton (htemp _), sourceFindings_singleton (htemp _)]

mutual

theorem Node.sourceFindings_congr : (n : Node) → {referent? referent?' : String → Option Referent} →
    AgreeOnSource referent? referent?' →
      sourceFindings (n.findings referent?) = sourceFindings (n.findings referent?')
  | .var token path _, _, _, h => by
    rw [Node.findings, Node.findings]
    exact sourceFindings_ofPath_congr h token path
  | .cond c, _, _, h => by
    rw [Node.findings, Node.findings]
    exact c.sourceFindings_congr h
  | .int .., _, _, _ | .float .., _, _, _ | .bool .., _, _, _ | .op .., _, _, _
  | .call .., _, _, _ => by rw [Node.findings, Node.findings]

theorem Expr.sourceFindings_congr : (e : List Node) →
    {referent? referent?' : String → Option Referent} → AgreeOnSource referent? referent?' →
      sourceFindings (Expr.findings referent? e) = sourceFindings (Expr.findings referent?' e)
  | [], _, _, _ => by rw [Expr.findings_nil, Expr.findings_nil]
  | n :: rest, _, _, h => by
    rw [Expr.findings_cons, Expr.findings_cons, sourceFindings_append, sourceFindings_append,
      n.sourceFindings_congr h, Expr.sourceFindings_congr rest h]

theorem Conditional.sourceFindings_congr : (c : Conditional) →
    {referent? referent?' : String → Option Referent} → AgreeOnSource referent? referent?' →
      sourceFindings (c.findings referent?) = sourceFindings (c.findings referent?')
  | .mk _ condition onTrue onFalse _ _, _, _, h => by
    simp only [Conditional.findings, sourceFindings_append]
    rw [Expr.sourceFindings_congr condition h, Block.sourceFindings_congr onTrue (.nested h),
      Block.sourceFindings_congr onFalse (.nested h)]

theorem Statement.sourceFindings_congr : (s : Statement) → {σ σ' : NameScope} → σ.Agrees σ' →
    sourceFindings (s.findings σ) = sourceFindings (s.findings σ')
  | .declare token name _ value _, _, _, h => by
    simp only [Statement.findings, sourceFindings_append]
    rw [Expr.sourceFindings_congr value h.referent?, sourceFindings_declared_congr h]
  | .assign _ target value, _, _, h => by
    simp only [Statement.findings, sourceFindings_append]
    rw [Expr.sourceFindings_congr value h.referent?,
      sourceFindings_ofPath_congr h.referent? target.token target.path]
  | .eval _ value, _, _, h | .ret _ value, _, _, h => by
    rw [Statement.findings, Statement.findings]
    exact Expr.sourceFindings_congr value h.referent?
  | .cond c, _, _, h => by
    rw [Statement.findings, Statement.findings]
    exact c.sourceFindings_congr h.referent?
  | .loop _ condition body, _, _, h => by
    simp only [Statement.findings, sourceFindings_append]
    rw [Expr.sourceFindings_congr condition h.referent?,
      Block.sourceFindings_congr body (.nested h.referent?)]
  | .exit .., _, _, _ | .next .., _, _, _ => by rw [Statement.findings, Statement.findings]

/-- What is found at the places of a source is a matter of the names that a source can write. -/
theorem Block.sourceFindings_congr : (b : List Statement) → {σ σ' : NameScope} → σ.Agrees σ' →
    sourceFindings (Block.findings σ b) = sourceFindings (Block.findings σ' b)
  | [], _, _, _ => by rw [Block.findings_nil, Block.findings_nil]
  | s :: rest, _, _, h => by
    rw [Block.findings_cons, Block.findings_cons, sourceFindings_append, sourceFindings_append,
      s.sourceFindings_congr h, Block.sourceFindings_congr rest (h.after s)]

end

theorem Block.findings_append (σ : NameScope) (b b' : Block) :
    Block.findings σ (b ++ b') = Block.findings σ b ++ Block.findings (σ.afterAll b) b' := by
  induction b generalizing σ with
  | nil => rw [List.nil_append, Block.findings_nil, List.nil_append]; rfl
  | cons s rest ih =>
    rw [List.cons_append, Block.findings_cons, Block.findings_cons, ih, List.append_assoc]
    rfl

/-- What is found at the places of a source in a block whose statements declare temporaries only. After
it the names of a source stand for what they stood for before. -/
structure Block.Passes (b : Block) (fs : (String → Option Referent) → List Finding) : Prop where
  findings : ∀ σ, sourceFindings (Block.findings σ b) = fs σ.referent?
  after : ∀ σ : NameScope, (σ.afterAll b).Agrees σ

namespace Block.Passes

variable {b b' : Block} {fs fs' : (String → Option Referent) → List Finding}

theorem nil : Block.Passes [] fun _ => [] :=
  ⟨fun σ => by rw [Block.findings_nil, sourceFindings_nil], NameScope.Agrees.refl⟩

theorem append (h : Block.Passes b fs) (h' : Block.Passes b' fs') :
    Block.Passes (b ++ b') fun referent? => fs referent? ++ fs' referent? := by
  refine ⟨fun σ => ?_, fun σ => ?_⟩
  · rw [Block.findings_append, sourceFindings_append, h.findings σ,
      Block.sourceFindings_congr b' (h.after σ), h'.findings σ]
  · rw [NameScope.afterAll_append]
    exact (h'.after _).trans (h.after σ)

theorem declare (token k : Nat) (type : Option ValueType) (value : Expr) (slot : Option Nat) :
    Block.Passes [.declare token (temporaryName k) type value slot]
      fun referent? => sourceFindings (Expr.findings referent? value) := by
  refine ⟨fun σ => ?_, fun σ => .declare_temporaryName σ k _⟩
  rw [Block.findings_cons, Block.findings_nil, List.append_nil, Statement.findings,
    sourceFindings_append, sourceFindings_singleton, List.append_nil]
  rw [Finding.isTemporary, Finding.name, temporary?_temporaryName]
  rfl

end Block.Passes

/-- What is written for a statement: at the places of a source the same is found, and afterwards the
names of a source stand for the same. -/
structure Block.StandsFor (b : Block) (s : Statement) : Prop where
  findings : ∀ σ, sourceFindings (Block.findings σ b) = sourceFindings (s.findings σ)
  after : ∀ σ : NameScope, (σ.afterAll b).Agrees (σ.after s)

theorem Block.StandsFor.singleton {s t : Statement}
    (hfindings : ∀ σ, sourceFindings (t.findings σ) = sourceFindings (s.findings σ))
    (hafter : ∀ σ : NameScope, σ.after t = σ.after s) : Block.StandsFor [t] s := by
  refine ⟨fun σ => ?_, fun σ => ?_⟩
  · rw [Block.findings_cons, Block.findings_nil, List.append_nil, hfindings]
  · rw [NameScope.afterAll, List.foldl_cons, List.foldl_nil, hafter]
    exact .refl _

theorem Block.Passes.standsFor {b : Block} {fs : (String → Option Referent) → List Finding}
    (h : b.Passes fs) {s : Statement}
    (hs : ∀ σ : NameScope, fs σ.referent? = sourceFindings (s.findings σ))
    (hafter : ∀ σ : NameScope, σ.after s = σ) : b.StandsFor s :=
  ⟨fun σ => (h.findings σ).trans (hs σ), fun σ => by
    rw [hafter σ]
    exact h.after σ⟩

end FrontEnd
