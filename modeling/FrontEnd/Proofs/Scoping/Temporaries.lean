import FrontEnd.Proofs.Initialization.Modules
import FrontEnd.Proofs.Scoping.SourceNames

/-!
# Temporaries are found in order

No fault is found at the place of a temporary: each is declared once and used only where it
is in scope. So the first fault that is found in a flat function, if there is one, is found
at a place of the source.
-/

namespace FrontEnd

open ControlFlow (temporary? temporary?_eq_some)

/-- No fault is found at the place of a temporary. -/
def TemporariesInOrder (fs : List Finding) : Prop :=
  ∀ x ∈ fs, x.isTemporary = true → x.fault? = none

theorem TemporariesInOrder.append {fs fs' : List Finding} (h : TemporariesInOrder fs)
    (h' : TemporariesInOrder fs') : TemporariesInOrder (fs ++ fs') :=
  List.forall_mem_append.mpr ⟨h, h'⟩

theorem TemporariesInOrder.nil : TemporariesInOrder [] := List.forall_mem_nil _

theorem TemporariesInOrder.of_source {fs : List Finding} (h : ∀ x ∈ fs, x.isTemporary = false) :
    TemporariesInOrder fs := by
  intro x hx htemp
  rw [h x hx] at htemp
  cases htemp

/-- Then the first fault is found at a place of the source. -/
theorem TemporariesInOrder.firstFault? {fs : List Finding} (h : TemporariesInOrder fs) :
    Finding.firstFault? (sourceFindings fs) = Finding.firstFault? fs := by
  induction fs with
  | nil => rfl
  | cons x rest ih =>
    obtain ⟨hx, hrest⟩ := List.forall_mem_cons.mp h
    have hlast := ih hrest
    rw [Finding.firstFault?, Finding.firstFault?, sourceFindings] at hlast ⊢
    rw [List.findSome?_cons]
    cases htemp : x.isTemporary with
    | true => rw [List.filter_cons_of_neg (by simp [htemp]), hx htemp, hlast]
    | false => rw [List.filter_cons_of_pos (by simp [htemp]), List.findSome?_cons, hlast]

/-- The temporaries that are in scope stand for something, and those that are to be declared are
distinct and new to the block. -/
structure NameScope.Awaits (σ : NameScope) (known : Set String) (names : List String) : Prop where
  known : ∀ name ∈ known, (σ.referent? name).isSome
  fresh : ∀ name ∈ names, name ∉ σ.own
  nodup : names.Nodup
  temporary : ∀ name ∈ names, temporary? [name] = some name

namespace NameScope.Awaits

variable {σ : NameScope} {known : Set String} {names names' : List String}

theorem nested (h : σ.Awaits known names) (hsub : names'.Sublist names) :
    NameScope.Awaits ⟨σ.referent?, []⟩ known names' :=
  ⟨h.known, fun _ _ => List.not_mem_nil, h.nodup.sublist hsub,
    fun name hname => h.temporary name (hsub.subset hname)⟩

theorem sublist (h : σ.Awaits known names) (hsub : names'.Sublist names) : σ.Awaits known names' :=
  ⟨h.known, fun name hname => h.fresh name (hsub.subset hname), h.nodup.sublist hsub,
    fun name hname => h.temporary name (hsub.subset hname)⟩

theorem after {s : Statement} (h : σ.Awaits known (temporariesOf s.mentions ++ names)) :
    (σ.after s).Awaits (s.scopeAfter known) names := by
  have hlast := h.sublist (List.sublist_append_right _ _)
  cases s with
  | declare token name type value slot =>
    refine ⟨fun other hother => ?_, fun other hother hown => ?_, hlast.nodup, hlast.temporary⟩
    · rw [NameScope.after, NameScope.declare]
      dsimp only
      by_cases heq : other = name
      · rw [heq, Function.update_self]
        rfl
      · rw [Function.update_of_ne heq]
        refine h.known other (hother.resolve_right fun htemp => heq ?_)
        exact (List.cons.inj (temporary?_eq_some htemp)).1.symm
    · rcases List.mem_cons.mp hown with rfl | hown
      · have hdeclared : other ∈
            temporariesOf (Statement.declare token other type value slot).mentions := by
          rw [Statement.mentions, temporariesOf_append]
          refine List.mem_append_right _ (List.mem_filterMap.mpr ⟨_, List.mem_singleton_self _, ?_⟩)
          exact hlast.temporary other hother
        exact (List.nodup_append.mp h.nodup).2.2 other hdeclared other hother rfl
      · exact hlast.fresh other hother hown
  | _ => exact hlast

end NameScope.Awaits

theorem temporary?_of_mem_temporariesOf {ms : List Mention} {name : String}
    (h : name ∈ temporariesOf ms) : temporary? [name] = some name := by
  obtain ⟨m, -, hm⟩ := List.mem_filterMap.mp h
  cases m with
  | declare token other =>
    have hother : temporary? [other] = some name := hm
    cases temporary?_eq_some hother
    exact hm
  | _ => cases hm

variable {known : Set String} {σ : NameScope}

theorem temporariesInOrder_ofPath {referent? : String → Option Referent}
    (hknown : ∀ name ∈ known, (referent? name).isSome) (token : Nat) {path : List String}
    (h : TemporariesIn known [path]) :
    TemporariesInOrder (Finding.ofPath referent? token path) := by
  match path with
  | [] | _ :: _ :: _ => exact .nil
  | [name] =>
    refine List.forall_mem_singleton.mpr fun htemp => ?_
    obtain ⟨other, hother⟩ := Option.isSome_iff_exists.mp htemp
    cases temporary?_eq_some hother
    have hsome := hknown name (h _ (List.mem_singleton_self _) name hother)
    obtain ⟨referent, hreferent⟩ := Option.isSome_iff_exists.mp hsome
    rw [hreferent, Finding.fault?]

/-- A temporary that is in scope stands for something. -/
theorem Expr.temporariesInOrder {referent? : String → Option Referent}
    (hknown : ∀ name ∈ known, (referent? name).isSome) {e : Expr} (hflat : e.IsFlat)
    (h : TemporariesIn known (Expr.paths e)) :
    TemporariesInOrder (Expr.findings referent? e) := by
  induction e with
  | nil =>
    rw [Expr.findings_nil]
    exact .nil
  | cons n rest ih =>
    rw [Expr.IsFlat, Expr.containsConditional, List.any_cons, Bool.or_eq_false_iff] at hflat
    rw [Expr.paths] at h
    rw [Expr.findings_cons]
    refine .append ?_ (ih hflat.2 fun p hp => h p (List.mem_append_right _ hp))
    cases n with
    | var token path binding =>
      rw [Node.findings]
      exact temporariesInOrder_ofPath hknown token fun p hp => h p (List.mem_append_left _ hp)
    | cond => cases hflat.1
    | _ =>
      rw [Node.findings]
      exact .nil

mutual

theorem Statement.temporariesInOrder : (s : Statement) → {known : Set String} → {σ : NameScope} →
    (∀ e ∈ s.exprs, Expr.IsFlat e) → s.Scoped known → σ.Awaits known (temporariesOf s.mentions) →
      TemporariesInOrder (s.findings σ)
  | .declare token name _ value _, known, σ, hplain, hscoped, hawaits => by
    rw [Statement.exprs] at hplain
    rw [Statement.findings]
    refine .append (Expr.temporariesInOrder hawaits.known (.of_value hplain) hscoped)
      (List.forall_mem_singleton.mpr fun htemp => ?_)
    obtain ⟨other, hother⟩ := Option.isSome_iff_exists.mp htemp
    cases temporary?_eq_some hother
    rw [Statement.mentions, temporariesOf_append] at hawaits
    have hdeclared : name ∈ temporariesOf [.declare token name !value.isEmpty] :=
      List.mem_filterMap.mpr ⟨_, List.mem_singleton_self _, hother⟩
    have hnew := hawaits.fresh name (List.mem_append_right _ hdeclared)
    rw [decide_eq_false hnew, Finding.fault?]
  | .assign _ target value, known, σ, hplain, ⟨hvalue, htarget⟩, hawaits => by
    rw [Statement.findings]
    exact .append (Expr.temporariesInOrder hawaits.known (hplain value List.mem_cons_self) hvalue)
      (temporariesInOrder_ofPath hawaits.known target.token htarget)
  | .eval _ value, known, σ, hplain, hscoped, hawaits => by
    rw [Statement.findings]
    exact Expr.temporariesInOrder hawaits.known (hplain value List.mem_cons_self) hscoped
  | .ret _ value, known, σ, hplain, hscoped, hawaits => by
    rw [Statement.exprs] at hplain
    rw [Statement.findings]
    exact Expr.temporariesInOrder hawaits.known (.of_value hplain) hscoped
  | .cond c, known, σ, hplain, hscoped, hawaits => by
    rw [Statement.findings]
    exact c.temporariesInOrder hplain hscoped (hawaits.nested (List.Sublist.refl _))
  | .loop _ condition body, known, σ, hplain, ⟨hcondition, hbody⟩, hawaits => by
    rw [Statement.exprs, List.forall_mem_append, List.forall_mem_cons] at hplain
    rw [Statement.mentions, temporariesOf_append] at hawaits
    rw [Statement.findings]
    exact .append (Expr.temporariesInOrder hawaits.known hplain.1.1 hcondition)
      (Block.temporariesInOrder body hplain.2 hbody
        (hawaits.nested (List.sublist_append_right _ _)))
  | .exit .., known, σ, _, _, _ | .next .., known, σ, _, _, _ => by
    rw [Statement.findings]
    exact .nil

theorem Conditional.temporariesInOrder : (c : Conditional) → {known : Set String} →
    {referent? : String → Option Referent} → (∀ e ∈ c.exprs, Expr.IsFlat e) → c.Scoped known →
      NameScope.Awaits ⟨referent?, []⟩ known (temporariesOf c.mentions) →
        TemporariesInOrder (c.findings referent?)
  | .mk _ condition onTrue onFalse _ _, known, referent?, hplain, ⟨hcondition, htrue, hfalse⟩,
      hawaits => by
    rw [Conditional.exprs, List.forall_mem_append, List.forall_mem_append,
      List.forall_mem_cons] at hplain
    obtain ⟨⟨⟨hflat, -⟩, hplain₁⟩, hplain₂⟩ := hplain
    rw [Conditional.mentions, temporariesOf_append, temporariesOf_append] at hawaits
    have hblocks := hawaits.sublist (List.sublist_append_left _ _)
    rw [Conditional.findings]
    refine .append (.append (Expr.temporariesInOrder hawaits.known hflat hcondition) ?_) ?_
    · exact Block.temporariesInOrder onTrue hplain₁ htrue
        (hblocks.nested (List.sublist_append_right _ _))
    · exact Block.temporariesInOrder onFalse hplain₂ hfalse
        (hawaits.nested (List.sublist_append_right _ _))

/-- Where the temporaries of a block are in scope and each is declared once, no fault is found at the
place of one. -/
theorem Block.temporariesInOrder : (b : List Statement) → {known : Set String} →
    {σ : NameScope} → Block.IsPlain b → Block.Scoped known b →
      σ.Awaits known (Block.temporaries b) → TemporariesInOrder (Block.findings σ b)
  | [], known, σ, _, _, _ => by
    rw [Block.findings_nil]
    exact .nil
  | s :: rest, known, σ, hplain, ⟨hs, hrest⟩, hawaits => by
    rw [Block.IsPlain, Block.exprs, List.forall_mem_append] at hplain
    rw [Block.temporaries, Block.mentions_cons, temporariesOf_append] at hawaits
    rw [Block.findings_cons]
    have hfirst := hawaits.sublist (List.sublist_append_left _ _)
    exact .append (s.temporariesInOrder hplain.1 hs hfirst)
      (Block.temporariesInOrder rest hplain.2 hrest hawaits.after)

end

/-! ## Functions -/

theorem NameScope.exists_param_of_mem_own {params : List Param} {name : String}
    (h : name ∈ (σ.withParams params).own) : name ∈ σ.own ∨ ∃ p ∈ params, p.name = name := by
  induction params generalizing σ with
  | nil => exact .inl h
  | cons p rest ih =>
    rw [NameScope.withParams] at h
    rcases ih h with hown | ⟨q, hq, hname⟩
    · rcases List.mem_cons.mp hown with rfl | hown
      · exact .inr ⟨p, List.mem_cons_self, rfl⟩
      · exact .inl hown
    · exact .inr ⟨q, List.mem_cons_of_mem _ hq, hname⟩

/-- Parameters are no temporaries where none has the name of one. -/
theorem NameScope.isTemporary_paramFindings {params : List Param}
    (h : ∀ p ∈ params, temporary? [p.name] = none) :
    ∀ x ∈ σ.paramFindings params, x.isTemporary = false := by
  induction params generalizing σ with
  | nil => exact List.forall_mem_nil _
  | cons p rest ih =>
    obtain ⟨hp, hrest⟩ := List.forall_mem_cons.mp h
    refine List.forall_mem_cons.mpr ⟨?_, ih hrest⟩
    rw [Finding.isTemporary, Finding.name, hp]
    rfl

namespace ControlFlow

/-- In the functions of a module that is accepted no fault is found at the place of a temporary, where
no name of the source is that of one. -/
theorem temporariesInOrder_normalize {items flat : List Item} (h : normalize items = .ok flat)
    (hs : ∀ f ∈ functionsOf items, IsSource (Block.paths f.body)) {f : Function}
    (hf : f ∈ functionsOf flat) (hparams : ∀ p ∈ f.params, temporary? [p.name] = none)
    (globals : String → Option GlobalRef) : TemporariesInOrder (f.findings globals) := by
  obtain ⟨n, hflattens⟩ := exists_flattens_of_normalize h
  obtain ⟨-, hperm, hchecks⟩ := hflattens.written hs
  obtain ⟨σ', hc⟩ := hchecks f hf
  have hnodup := hperm.nodup_iff.mpr (nodup_temporariesBetween 0 n)
  refine .append (.of_source (NameScope.isTemporary_paramFindings hparams))
    (Block.temporariesInOrder f.body (isPlain_normalize h f hf)
      (Block.Checks.scoped f.body hc (Set.Subset.refl _)) ?_)
  refine ⟨fun name hname => (Set.notMem_empty name hname).elim, fun name hname hown => ?_,
    (List.nodup_flatMap.mp hnodup).1 f hf, fun name hname => temporary?_of_mem_temporariesOf hname⟩
  rcases NameScope.exists_param_of_mem_own hown with hstart | ⟨p, hp, rfl⟩
  · cases hstart
  · have hsome := temporary?_of_mem_temporariesOf hname
    rw [hparams p hp] at hsome
    cases hsome

end ControlFlow

end FrontEnd
