import FrontEnd.Proofs.Initialization.Paths
import FrontEnd.Proofs.Initialization.Scopes

/-!
# Temporaries hold what is read

A block that keeps to the rules, and that declares none of its temporaries twice, only
reads temporaries that hold a value, on every path. A temporary that holds a value keeps
one as long as it is in scope, since nothing that is nested in its scope declares it again.
So it does not matter where a path leaves a loop or goes back to its start.
-/

namespace FrontEnd

open ControlFlow (temporary?)

namespace Scope

/-- A history in which the temporaries in scope are declared, and those that are ready hold a
value. -/
structure Holds (σ : Scope) (history : List Event) : Prop where
  known : ∀ name ∈ σ.known, ∃ initialized, .declare name initialized ∈ history
  ready : ∀ name ∈ σ.ready, HoldsValue history name

/-- Names that are not in scope, none of them twice. -/
structure Fresh (σ : Scope) (names : List String) : Prop where
  nodup : names.Nodup
  unknown : ∀ name ∈ names, name ∉ σ.known

variable {σ σ' : Scope} {history es : List Event}

theorem Holds.mono (h : σ'.Holds history) (hσ : σ.Extends σ') : σ.Holds history :=
  ⟨fun name hname => h.known name (hσ.known hname), fun name hname => h.ready name (hσ.ready hname)⟩

/-- What holds stays so where no temporary in scope is declared again. -/
theorem Holds.append (h : σ.Holds history)
    (hes : ∀ name ∈ σ.known, ∀ again, .declare name again ∉ es) : σ.Holds (history ++ es) := by
  constructor
  · intro name hname
    obtain ⟨initialized, hm⟩ := h.known name hname
    exact ⟨initialized, List.mem_append_left es hm⟩
  · intro name hname
    exact (h.ready name hname).append (hes name (σ.ready_subset hname))

theorem Holds.append_reads (h : σ.Holds history) (e : Expr) : σ.Holds (history ++ e.reads) := by
  refine h.append fun name _ again hm => ?_
  obtain ⟨path, -, hpath⟩ := List.mem_map.mp hm
  cases hpath

theorem Holds.readsHold (h : σ.Holds history) {e : Expr} (he : σ.Allows e) :
    ReadsHold history e.reads :=
  ReadsHold.reads fun path hp name hname => h.ready name (he path hp name hname)

theorem holds_empty : Scope.empty.Holds [] := ⟨fun _ h => h.elim, fun _ h => h.elim⟩

/-- A variable of the source is not in scope as a temporary. -/
theorem not_mem_known {name : String} (h : temporary? [name] = none) : name ∉ σ.known := by
  intro hname
  rw [σ.temporary name hname] at h
  cases h

theorem Fresh.left {names names' : List String} (h : σ.Fresh (names ++ names')) : σ.Fresh names :=
  ⟨(List.nodup_append.mp h.nodup).1, fun name hm => h.unknown name (List.mem_append_left _ hm)⟩

/-- What comes after some declarations is fresh for the scope after them. -/
theorem Fresh.right {names names' : List String} (h : σ.Fresh (names ++ names'))
    (hσ : ∀ name ∈ σ'.known, name ∈ σ.known ∨ name ∈ names) : σ'.Fresh names' := by
  obtain ⟨-, hnodup, hdisjoint⟩ := List.nodup_append.mp h.nodup
  refine ⟨hnodup, fun name hm hknown => ?_⟩
  rcases hσ name hknown with hold | hnew
  · exact h.unknown name (List.mem_append_right _ hm) hold
  · exact hdisjoint name hnew name hm rfl

end Scope

/-- Along the paths, from any history in which the first scope holds, every temporary that is read
holds a value. The first scope still holds at the end, and so does the second one where the path
goes on. -/
def Respects (σ σ' : Scope) (paths : List Event → Flow → Prop) : Prop :=
  ∀ history, σ.Holds history → ∀ es flow, paths es flow →
    ReadsHold history es ∧ σ.Holds (history ++ es) ∧ (flow = .goesOn → σ'.Holds (history ++ es))

namespace Respects

variable {σ σ' σ₁ σ₂ : Scope} {P Q : List Event → Flow → Prop}

/-- Nothing happens, and the path does not go on. -/
theorem leave {last : Flow} (h : last ≠ .goesOn) :
    Respects σ σ' fun es flow => es = [] ∧ flow = last := by
  rintro history hold _ _ ⟨rfl, rfl⟩
  rw [List.append_nil]
  exact ⟨ReadsHold.nil history, hold, fun hflow => absurd hflow h⟩

/-- One event that reads nothing. -/
theorem event {e : Event} (he : ∀ path, e ≠ .read path)
    (hσ : ∀ name ∈ σ.known, ∀ again, e ≠ .declare name again)
    (h : ∀ history, σ.Holds history → σ'.Holds (history ++ [e])) :
    Respects σ σ' fun es flow => es = [e] ∧ flow = .goesOn := by
  rintro history hold _ _ ⟨rfl, rfl⟩
  have hagain : ∀ name ∈ σ.known, ∀ again, .declare name again ∉ [e] := fun name hname again hm =>
    hσ name hname again (List.mem_singleton.mp hm).symm
  exact ⟨ReadsHold.singleton he, hold.append hagain, fun _ => h history hold⟩

/-- An expression is evaluated first. -/
theorem after {e : Expr} (he : σ.Allows e) (h : Respects σ σ' P) :
    Respects σ σ' fun es flow => ∃ es', es = e.reads ++ es' ∧ P es' flow := by
  rintro history hold _ flow ⟨es', rfl, hpath⟩
  obtain ⟨hreads, hkept, hgoes⟩ := h _ (hold.append_reads e) es' flow hpath
  rw [← List.append_assoc]
  exact ⟨(hold.readsHold he).append hreads, hkept, hgoes⟩

/-- An expression is evaluated, and then one more event happens, or the path ends in its way. -/
theorem evaluated {e : Expr} {last : List Event} {flow : Flow} (he : σ.Allows e)
    (h : Respects σ σ' fun es flow' => es = last ∧ flow' = flow) :
    Respects σ σ' fun es flow' => es = e.reads ++ last ∧ flow' = flow := by
  rintro history hold _ _ ⟨rfl, rfl⟩
  exact after he h history hold _ _ ⟨last, rfl, rfl, rfl⟩

/-- An expression that is only evaluated. -/
theorem reads {e : Expr} (he : σ.Allows e) {flow : Flow} (hσ : flow = .goesOn → σ' = σ) :
    Respects σ σ' fun es flow' => es = e.reads ∧ flow' = flow := by
  rintro history hold _ _ ⟨rfl, rfl⟩
  refine ⟨hold.readsHold he, hold.append_reads e, fun hflow => ?_⟩
  rw [hσ hflow]
  exact hold.append_reads e

/-- One of two ways is taken, and what holds after both of them holds after it. -/
theorem branch {names : Set String} (hnames : names ⊆ σ.known) (h₁ : Respects σ σ₁ P)
    (h₂ : Respects σ σ₂ Q) (hr₁ : names ⊆ σ₁.ready) (hr₂ : names ⊆ σ₂.ready) :
    Respects σ (σ.gain names hnames) fun es flow => P es flow ∨ Q es flow := by
  have hgain : ∀ {τ : Scope} {history : List Event}, σ.Holds history → τ.Holds history →
      names ⊆ τ.ready → (σ.gain names hnames).Holds history := by
    intro τ history hσ hτ hr
    refine ⟨hσ.known, fun name hname => ?_⟩
    rcases hname with hname | hname
    · exact hσ.ready name hname
    · exact hτ.ready name (hr hname)
  rintro history hold es flow (hpath | hpath)
  · obtain ⟨hreads, hkept, hgoes⟩ := h₁ history hold es flow hpath
    exact ⟨hreads, hkept, fun hflow => hgain hkept (hgoes hflow) hr₁⟩
  · obtain ⟨hreads, hkept, hgoes⟩ := h₂ history hold es flow hpath
    exact ⟨hreads, hkept, fun hflow => hgain hkept (hgoes hflow) hr₂⟩

/-- A loop, by induction on its turns. Each turn may only count on what holds before the loop. -/
theorem loop {e : Expr} (he : σ.Allows e) (h : Respects σ σ' P) :
    Respects σ σ (LoopPath e.reads P) := by
  intro history hold es flow hpath
  induction hpath generalizing history with
  | done =>
    exact ⟨hold.readsHold he, hold.append_reads e, fun _ => hold.append_reads e⟩
  | turn hbody _ _ ih =>
    obtain ⟨hreads, hkept, -⟩ := after he h history hold _ _ ⟨_, rfl, hbody⟩
    obtain ⟨hreads', hkept', hgoes⟩ := ih _ hkept
    rw [← List.append_assoc]
    exact ⟨hreads.append hreads', hkept', hgoes⟩
  | ends hbody _ =>
    obtain ⟨hreads, hkept, -⟩ := after he h history hold _ _ ⟨_, rfl, hbody⟩
    exact ⟨hreads, hkept, fun _ => hkept⟩

end Respects

/-- A temporary that is declared has a value if it is initialized. -/
theorem Scope.Holds.declare {σ : Scope} {history : List Event} (h : σ.Holds history)
    {name : String} (hname : temporary? [name] = some name) (hnew : name ∉ σ.known)
    (initialized : Bool) :
    (σ.declare hname initialized).Holds (history ++ [.declare name initialized]) := by
  have hkept : σ.Holds (history ++ [.declare name initialized]) := by
    refine h.append fun other hother again hm => ?_
    cases List.mem_singleton.mp hm
    exact hnew hother
  constructor
  · rintro other (rfl | hother)
    · exact ⟨initialized, by simp⟩
    · exact hkept.known other hother
  · intro other hother
    rw [Scope.declare] at hother
    dsimp only at hother
    split at hother
    · next hinit =>
      rcases hother with rfl | hother
      · rw [hinit]
        exact HoldsValue.declared history other
      · exact hkept.ready other hother
    · exact hkept.ready other hother

/-- A temporary in scope has a value once it is assigned. -/
theorem Scope.Holds.store {σ : Scope} {history : List Event} (h : σ.Holds history) {name : String}
    (hname : {name} ⊆ σ.known) :
    (σ.gain {name} hname).Holds (history ++ [.write [name]]) := by
  have hkept : σ.Holds (history ++ [.write [name]]) := by
    refine h.append fun other _ again hm => ?_
    cases List.mem_singleton.mp hm
  refine ⟨hkept.known, fun other hother => ?_⟩
  rcases hother with hother | hother
  · exact hkept.ready other hother
  · cases Set.mem_singleton_iff.mp hother
    exact HoldsValue.written (h.known _ (hname (Set.mem_singleton _)))

mutual

theorem Statement.Checks.respects : ∀ (s : Statement) {σ σ' : Scope}, s.Checks σ σ' →
    σ.Fresh (temporariesOf s.mentions) → Respects σ σ' s.HasPath
  | .declare .., σ, _, h, hfresh => by
    cases h with
    | declare hname hvalue =>
      refine Respects.evaluated hvalue (Respects.event nofun ?_ fun history hold => ?_)
      · rintro name hname' again ⟨rfl, -⟩
        exact Scope.not_mem_known hname hname'
      · refine hold.append fun name hname' again hm => ?_
        cases List.mem_singleton.mp hm
        exact Scope.not_mem_known hname hname'
    | temporary hname hvalue =>
      have hnew := hfresh.unknown _ (by
        rw [Statement.mentions, temporariesOf_append]
        exact List.mem_append_right _
          (List.mem_filterMap.mpr ⟨_, List.mem_singleton_self _, hname⟩))
      refine Respects.evaluated hvalue (Respects.event nofun ?_ fun history hold =>
        hold.declare hname hnew _)
      rintro name hname' again ⟨rfl, -⟩
      exact hnew hname'
  | .assign .., σ, _, h, _ => by
    cases h with
    | assign htarget hvalue =>
      refine Respects.evaluated hvalue (Respects.event nofun nofun fun history hold => ?_)
      exact hold.append fun name _ again hm => nomatch List.mem_singleton.mp hm
    | store hname hvalue =>
      exact Respects.evaluated hvalue (Respects.event nofun nofun fun history hold =>
        hold.store hname)
  | .eval .., σ, _, h, _ => by
    cases h with
    | eval hvalue => exact Respects.reads hvalue fun _ => rfl
  | .ret .., σ, _, h, _ => by
    cases h with
    | ret _ hvalue => exact Respects.reads hvalue nofun
  | .cond c, σ, _, h, hfresh => by
    cases h with
    | cond hnames hc => exact Conditional.Checks.respects c hnames hc hfresh
  | .loop _ _ body, σ, _, h, hfresh => by
    cases h with
    | loop hcondition hbody =>
      rw [Statement.mentions, temporariesOf_append] at hfresh
      exact Respects.loop hcondition (Block.Checks.respects body hbody
        (hfresh.right fun _ hname => .inl hname))
  | .exit .., σ, _, h, _ => by
    cases h with
    | exit => exact Respects.leave nofun
  | .next .., σ, _, h, _ => by
    cases h with
    | next => exact Respects.leave nofun

theorem Conditional.Checks.respects : ∀ (c : Conditional) {σ : Scope} {names : Set String}
    (hnames : names ⊆ σ.known), c.Checks σ names → σ.Fresh (temporariesOf c.mentions) →
    Respects σ (σ.gain names hnames) c.HasPath
  | .mk _ condition onTrue onFalse _ _, σ, _, hnames, h, hfresh => by
    cases h with
    | mk hcondition htrue hfalse h₁ h₂ =>
      rw [Conditional.mentions, temporariesOf_append, temporariesOf_append] at hfresh
      have hft := hfresh.left.right fun _ hname => .inl hname
      have hff := hfresh.right fun _ hname => .inl hname
      exact Respects.after hcondition (Respects.branch hnames
        (Block.Checks.respects onTrue htrue hft) (Block.Checks.respects onFalse hfalse hff) h₁ h₂)

/-- A block that keeps to the rules reads nothing but what holds a value. -/
theorem Block.Checks.respects : ∀ (b : List Statement) {σ σ' : Scope}, Block.Checks σ b σ' →
    σ.Fresh (Block.temporaries b) → Respects σ σ' (Block.HasPath b)
  | [], σ, σ', h, _ => by
    cases h
    rintro history hold _ flow ⟨rfl, -⟩
    rw [List.append_nil]
    exact ⟨ReadsHold.nil history, hold, fun _ => hold⟩
  | s :: rest, σ, σ', h, hfresh => by
    cases h with
    | cons hs hrest =>
      rw [Block.temporaries, Block.mentions, temporariesOf_append] at hfresh
      have hrs := Statement.Checks.respects s hs hfresh.left
      have hrr := Block.Checks.respects rest hrest (hfresh.right hs.known_or)
      rintro history hold es flow (⟨rfl, rfl⟩ | ⟨hpath, hne⟩ | ⟨es₁, es₂, hpath, hpath', rfl⟩)
      · rw [List.append_nil]
        exact ⟨ReadsHold.nil history, hold, nofun⟩
      · obtain ⟨hreads, hkept, -⟩ := hrs history hold es flow hpath
        exact ⟨hreads, hkept, fun hflow => absurd hflow hne⟩
      · obtain ⟨hreads, -, hgoes⟩ := hrs history hold es₁ _ hpath
        obtain ⟨hreads', hkept', hgoes'⟩ := hrr _ (hgoes rfl) es₂ flow hpath'
        rw [← List.append_assoc]
        exact ⟨hreads.append hreads', hkept'.mono hs.grows, hgoes'⟩

end

end FrontEnd
