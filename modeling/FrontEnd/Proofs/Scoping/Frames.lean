import FrontEnd.Proofs.Linking.Declarations

/-!
# Names apart from scopes

To bind a call or a name with a dot is no matter of scopes: they are not looked at and not
changed. And no name that is bound changes which globals the module has. These are those of
its items, all of which have been declared before.
-/

namespace FrontEnd

/-- The global of a name that the module `own` has by its items. -/
def ownGlobal? (own : ModulePath) (items : List Item) (name : String) : Option GlobalRef :=
  if (name, none) ∈ items.filterMap Item.signature? then some ⟨own, name⟩ else none

namespace Compilation

open Names (Symbols)

variable {α β : Type} {site : Site} {s s' : Linking}

/-- The globals of the module that can be found by their names. -/
def Linking.ShowsGlobals (globals : String → Option GlobalRef) (s : Linking) : Prop :=
  ∀ name, (s.symbols.global? name).map (·.ref) = globals name

theorem Linking.ShowsGlobals.of_eq {globals : String → Option GlobalRef}
    (h : s.ShowsGlobals globals) (heq : s'.symbols.globals = s.symbols.globals) :
    s'.ShowsGlobals globals := by
  intro name
  rw [← h name, Symbols.global?, Symbols.global?, heq]

namespace Link

/-- Binds a name that is no matter of scopes: that of a function, or one with a dot. -/
def bindDistant (site : Site) : Mention → Link Unit
  | .call token path arity => discard <| bindCall site token path arity
  | .read token path | .write token path =>
    if path.length = 1 then return else discard <| bindVariable site token path
  | .declare .. => return

/-- Binds all names among some mentions that are no matter of scopes. -/
def bindAllDistant (site : Site) : List Mention → Link Unit
  | [] => return
  | m :: rest => do
    bindDistant site m
    bindAllDistant site rest

/-! ## Computations apart from scopes -/

/-- The computation has nothing to do with scopes. Its result does not depend on them and leaves them
as they are, and it declares no global. -/
def Distant (x : Link α) : Prop :=
  ∀ ⦃s a s'⦄, x s = .ok a s' → s'.symbols.globals = s.symbols.globals ∧
    ∀ scopes, x { s with scopes } = .ok a { s' with scopes }

namespace Distant

theorem scopes_eq {x : Link α} (h : Distant x) {a : α} (hx : x s = .ok a s') :
    s'.scopes = s.scopes := by
  have hsame := (h hx).2 s.scopes
  rw [hx] at hsame
  cases s'
  cases hsame
  rfl

theorem pure (a : α) : Distant (Pure.pure a : Link α) := by
  rintro s _ _ ⟨⟩
  exact ⟨rfl, fun _ => rfl⟩

theorem unresolved {token : Nat} {path : List String} :
    Distant (Link.unresolved site token path : Link α) := nofun

theorem bind {x : Link α} {f : α → Link β} (hx : Distant x) (hf : ∀ a, Distant (f a)) :
    Distant (x >>= f) := by
  intro s b s' h
  obtain ⟨a, t, ha, hb⟩ := exists_of_bind_eq_ok h
  obtain ⟨hglobals, hsame⟩ := hx ha
  obtain ⟨hglobals', hsame'⟩ := hf a hb
  exact ⟨hglobals'.trans hglobals,
    fun scopes => (bind_apply_of_eq_ok (hsame scopes)).trans (hsame' scopes)⟩

theorem discard {x : Link α} (hx : Distant x) : Distant (Functor.discard x) :=
  hx.bind fun _ => pure ()

/-- What comes after the state has been looked at does not depend on the scopes of it. -/
theorem get_bind {f : Linking → Link β} (hf : ∀ s, Distant (f s))
    (heq : ∀ s scopes, f { s with scopes } = f s) : Distant (get >>= f) := by
  intro s b s' h
  obtain ⟨hglobals, hsame⟩ := hf s h
  refine ⟨hglobals, fun scopes => ?_⟩
  rw [get_bind_apply, heq]
  exact hsame scopes

theorem modifySymbols {change : Symbols → Symbols} (h : ∀ symbols, (change symbols).globals =
    symbols.globals) : Distant (modifySymbols change) := by
  rintro s _ _ ⟨⟩
  exact ⟨h s.symbols, fun _ => rfl⟩

theorem onRegistry (x : Compile α) : Distant (onRegistry x) := by
  intro s a s' h
  obtain ⟨registry, hx, rfl⟩ := onRegistry_eq_ok h
  refine ⟨rfl, fun scopes => ?_⟩
  unfold Link.onRegistry
  simp only [hx]

end Distant

theorem distant_importModule (target handle : ModulePath) (token : Nat) :
    Distant (importModule site target handle token) :=
  (Distant.onRegistry _).bind fun _ => .modifySymbols fun _ => rfl

theorem distant_targetModule (leading : List String) (token : Nat) :
    Distant (targetModule site leading token) := by
  refine .get_bind (fun s => ?_) fun _ _ => rfl
  cases s.symbols.target? ⟨leading⟩ with
  | some target => exact .pure target
  | none => exact (distant_importModule _ _ _).bind fun _ => .pure _

theorem distant_symbolsOf (path : ModulePath) : Distant (symbolsOf site path) := by
  refine .get_bind (fun s => ?_) fun _ _ => rfl
  split <;> exact .pure _

theorem distant_addExternal (ref : GlobalRef) : Distant (modifySymbols (·.addExternal ref)) := by
  refine .modifySymbols fun symbols => ?_
  unfold Symbols.addExternal
  split <;> rfl

theorem distant_bindVariable {path : List String} (h : path.length ≠ 1) (token : Nat) :
    Distant (bindVariable site token path) := by
  unfold bindVariable
  cases hname : path.getLast? with
  | none => exact .unresolved
  | some name =>
    dsimp only
    rw [if_neg (by rwa [dropLast_isEmpty_iff hname])]
    refine (distant_targetModule _ _).bind fun target =>
      (distant_symbolsOf target).bind fun symbols => ?_
    cases symbols.global? name with
    | none => exact .unresolved
    | some g =>
      dsimp only
      split
      · exact .pure _
      · split
        · exact (distant_addExternal g.ref).bind fun _ => .pure _
        · exact .unresolved

theorem distant_bindCall (token : Nat) (path : List String) (arity : Nat) :
    Distant (bindCall site token path arity) := by
  unfold bindCall
  cases path.getLast? with
  | none => exact .unresolved
  | some name =>
    have hlast : ∀ candidates : List Names.FunctionSymbol, Distant
        (if candidates.isEmpty then Link.unresolved site token path
          else return candidates.map (·.ref)) := by
      intro candidates
      split
      · exact .unresolved
      · exact .pure _
    dsimp only
    split
    · exact .get_bind (fun s => (Distant.pure _).bind hlast) fun _ _ => rfl
    · exact (distant_targetModule _ _).bind fun target =>
        (distant_symbolsOf target).bind fun _ => (Distant.pure _).bind hlast

theorem distant_bindDistant (m : Mention) : Distant (bindDistant site m) := by
  have hvariable : ∀ token path, Distant (if path.length = 1 then Pure.pure () else
      discard <| bindVariable site token path) := by
    intro token path
    split
    · exact .pure ()
    · next h => exact (distant_bindVariable h token).discard
  cases m with
  | call token path arity => exact (distant_bindCall token path arity).discard
  | read token path | write token path => exact hvariable token path
  | declare => exact .pure ()

theorem distant_bindAllDistant (ms : List Mention) : Distant (bindAllDistant site ms) := by
  induction ms with
  | nil => exact .pure ()
  | cons m rest ih => exact (distant_bindDistant m).bind fun _ => ih

/-! ## Computations that declare no global -/

/-- No global is declared, though modules may be compiled. -/
def KeepsGlobals (x : Link α) : Prop :=
  ∀ ⦃s a s'⦄, x s = .ok a s' → s'.symbols.globals = s.symbols.globals

theorem Distant.keepsGlobals {x : Link α} (h : Distant x) : KeepsGlobals x :=
  fun _ _ _ hx => (h hx).1

namespace KeepsGlobals

theorem pure (a : α) : KeepsGlobals (Pure.pure a : Link α) := by
  rintro s _ _ ⟨⟩
  rfl

theorem bind {x : Link α} {f : α → Link β} (hx : KeepsGlobals x)
    (hf : ∀ a, KeepsGlobals (f a)) : KeepsGlobals (x >>= f) := by
  intro s b s' h
  obtain ⟨a, t, ha, hb⟩ := exists_of_bind_eq_ok h
  exact (hf a hb).trans (hx ha)

theorem map {x : Link α} (hx : KeepsGlobals x) (f : α → β) : KeepsGlobals (f <$> x) := by
  intro s b s' h
  obtain ⟨a, t, ha, hb⟩ := exists_of_bind_eq_ok h
  cases hb
  exact hx ha

theorem get_bind {f : Linking → Link β} (hf : ∀ s, KeepsGlobals (f s)) :
    KeepsGlobals (get >>= f) :=
  fun s _ _ h => hf s h

theorem modify {change : Linking → Linking}
    (h : ∀ s, (change s).symbols.globals = s.symbols.globals) :
    KeepsGlobals (modify change : Link Unit) := by
  rintro s _ _ ⟨⟩
  exact h s

theorem inScope {x : Link α} (hx : KeepsGlobals x) : KeepsGlobals (inScope x) := by
  refine bind (modify ?_) fun _ => bind hx fun _ => bind (modify ?_) fun _ => pure _
  · exact fun _ => rfl
  · exact fun _ => rfl

end KeepsGlobals

/-- A name without a dot is bound by the scopes and the globals of the module. -/
theorem bindVariable_single_apply (token : Nat) (name : String) :
    bindVariable site token [name] s =
      match s.scopes.find? name, s.symbols.global? name with
      | some slot, _ => .ok (.slot slot) s
      | none, some g => .ok (.global g.ref) s
      | none, none => .error (site.buffer.locate ⟨token, .unresolvedIdentifier name⟩) s := by
  unfold bindVariable
  simp only [List.getLast?_singleton, List.dropLast_singleton, List.isEmpty_nil, if_true]
  rw [get_bind_apply]
  cases s.scopes.find? name with
  | some slot => rfl
  | none =>
    cases s.symbols.global? name with
    | some g => rfl
    | none =>
      have hname : joinDots [name] = name := String.intercalate_singleton
      dsimp only
      rw [unresolved, hname]
      rfl

theorem keepsGlobals_bindVariable (token : Nat) (path : List String) :
    KeepsGlobals (bindVariable site token path) := by
  by_cases hlen : path.length = 1
  · obtain ⟨name, rfl⟩ := List.length_eq_one_iff.mp hlen
    intro s binding s' h
    rw [bindVariable_single_apply] at h
    split at h <;> cases h <;> rfl
  · exact (distant_bindVariable hlen token).keepsGlobals

theorem keepsGlobals_declareLocal (token : Nat) (name : String) (type : Option ValueType)
    (isParam : Bool) : KeepsGlobals (declareLocal site token name type isParam) :=
  fun _ _ _ h => (declareLocal_leads h).globals

mutual

theorem keepsGlobals_linkNode : (n : Node) → KeepsGlobals (linkNode site n)
  | .var token path _ => by
    rw [linkNode]
    exact (keepsGlobals_bindVariable token path).bind fun _ => .pure _
  | .call token path arity _ => by
    rw [linkNode]
    exact (distant_bindCall token path arity).keepsGlobals.bind fun _ => .pure _
  | .cond c => by
    rw [linkNode]
    exact (keepsGlobals_linkConditional c).bind fun _ => .pure _
  | .int .. | .float .. | .bool .. | .op .. => by
    rw [linkNode] <;> first | exact .pure _ | nofun

theorem keepsGlobals_linkExpr : (e : List Node) → KeepsGlobals (linkExpr site e)
  | [] => by
    rw [linkExpr]
    exact .pure _
  | n :: rest => by
    rw [linkExpr]
    exact (keepsGlobals_linkNode n).bind fun _ => (keepsGlobals_linkExpr rest).bind fun _ => .pure _

theorem keepsGlobals_linkConditional : (c : Conditional) → KeepsGlobals (linkConditional site c)
  | .mk token condition onTrue onFalse _ _ => by
    rw [linkConditional]
    exact (keepsGlobals_linkExpr condition).bind fun _ =>
      (keepsGlobals_linkBlock onTrue).inScope.bind fun _ =>
        (keepsGlobals_linkBlock onFalse).inScope.bind fun _ => .pure _

theorem keepsGlobals_linkStatement : (st : Statement) → KeepsGlobals (linkStatement site st)
  | .declare token name type value _ => by
    rw [linkStatement]
    exact (keepsGlobals_linkExpr value).bind fun _ =>
      (keepsGlobals_declareLocal token name type false).bind fun _ => .pure _
  | .assign token target value => by
    rw [linkStatement]
    exact (keepsGlobals_linkExpr value).bind fun _ =>
      (keepsGlobals_bindVariable target.token target.path).bind fun _ => .pure _
  | .eval _ value | .ret _ value => by
    rw [linkStatement]
    exact (keepsGlobals_linkExpr value).bind fun _ => .pure _
  | .cond c => by
    rw [linkStatement]
    exact (keepsGlobals_linkConditional c).bind fun _ => .pure _
  | .loop token condition body => by
    rw [linkStatement]
    exact (keepsGlobals_linkExpr condition).bind fun _ =>
      (keepsGlobals_linkBlock body).inScope.bind fun _ => .pure _
  | .exit .. | .next .. => by
    rw [linkStatement]
    exact .pure _

theorem keepsGlobals_linkBlock : (b : List Statement) → KeepsGlobals (linkBlock site b)
  | [] => by
    rw [linkBlock]
    exact .pure _
  | st :: rest => by
    rw [linkBlock]
    exact (keepsGlobals_linkStatement st).bind fun _ =>
      (keepsGlobals_linkBlock rest).bind fun _ => .pure _

end

theorem keepsGlobals_declareParams (params : List Param) :
    KeepsGlobals (declareParams site params) := fun _ _ _ h => (declareParams_leads h).globals

theorem keepsGlobals_linkFunction (f : Function) : KeepsGlobals (linkFunction site f) := by
  refine .bind (.modify ?_) fun _ => (keepsGlobals_declareParams _).bind fun _ =>
    (keepsGlobals_linkBlock _).bind fun _ => .get_bind fun _ => .bind (.modify ?_) fun _ => .pure _
  · exact fun _ => rfl
  · exact fun _ => rfl

theorem keepsGlobals_linkBodies (items : List Item) : KeepsGlobals (linkBodies site items) := by
  induction items with
  | nil => exact .pure _
  | cons i rest ih =>
    cases i with
    | function f =>
      exact ((keepsGlobals_linkFunction f).map _).bind fun _ => ih.bind fun _ => .pure _
    | global | imports | submodule =>
      exact (KeepsGlobals.pure _).bind fun _ => ih.bind fun _ => .pure _

/-! ## The globals of a module -/

/-- All globals that are declared are those of the module itself. -/
theorem declareItem_globals {i i' : Item} (h : declareItem site i s = .ok i' s')
    (hs : ∀ g ∈ s.symbols.globals, g.ref.module = site.own) :
    ∀ g ∈ s'.symbols.globals, g.ref.module = site.own := by
  cases i with
  | imports i =>
    obtain ⟨_, s₁, himport, hrest⟩ := exists_of_bind_eq_ok h
    obtain ⟨_, s₂, hselected, hpure⟩ := exists_of_bind_eq_ok hrest
    cases hpure
    obtain rfl := checkSelected_eq_ok hselected
    rwa [(distant_importModule _ _ _).keepsGlobals himport]
  | submodule m =>
    obtain ⟨_, s₁, himport, hpure⟩ := exists_of_bind_eq_ok h
    cases hpure
    rwa [(distant_importModule _ _ _).keepsGlobals himport]
  | global g =>
    obtain ⟨_, s₁, hget, hrest⟩ := exists_of_bind_eq_ok h
    cases hget
    cases hd : s.symbols.declareGlobal? site.own g.name g.type g.isMutable g.isPublic with
    | none =>
      simp only [hd] at hrest
      cases hrest
    | some declared =>
      obtain ⟨ref, symbols⟩ := declared
      simp only [hd] at hrest
      cases hrest
      obtain ⟨hmodule, -, rfl⟩ := Symbols.declareGlobal?_eq_some hd
      rw [List.forall_mem_append, List.forall_mem_singleton]
      exact ⟨hs, hmodule⟩
  | function f =>
    obtain ⟨_, s₁, hget, hrest⟩ := exists_of_bind_eq_ok h
    cases hget
    cases hd : s.symbols.declareFunction? site.own f.name f.arity f.isPublic with
    | none =>
      simp only [hd] at hrest
      cases hrest
    | some declared =>
      obtain ⟨ref, symbols⟩ := declared
      simp only [hd] at hrest
      cases hrest
      obtain ⟨-, -, -, -, rfl⟩ := Symbols.declareFunction?_eq_some hd
      exact hs

theorem declareItems_globals {items items' : List Item}
    (h : declareItems site items s = .ok items' s')
    (hs : ∀ g ∈ s.symbols.globals, g.ref.module = site.own) :
    (∀ g ∈ s'.symbols.globals, g.ref.module = site.own) ∧ ∀ sig, sig ∈ s'.symbols.signatures ↔
      sig ∈ items.filterMap Item.signature? ∨ sig ∈ s.symbols.signatures := by
  induction items generalizing s items' with
  | nil =>
    cases h
    exact ⟨hs, fun sig => (or_iff_right List.not_mem_nil).symm⟩
  | cons i rest ih =>
    rw [declareItems] at h
    obtain ⟨i', s₁, hi, htail⟩ := exists_of_bind_eq_ok h
    obtain ⟨rest', s₂, hrest, hpure⟩ := exists_of_bind_eq_ok htail
    cases hpure
    obtain ⟨hown, hmem⟩ := ih hrest (declareItem_globals hi hs)
    obtain ⟨-, -, hsignature⟩ := declareItem_linksTo hi
    refine ⟨hown, fun sig => ?_⟩
    rw [hmem, hsignature, List.mem_filterMap, List.mem_filterMap, List.exists_mem_cons_iff, or_assoc]
    exact or_left_comm

/-- Where the items of a module have been declared the globals that can be found are those of them. -/
theorem showsGlobals_of_declareItems {items declared : List Item} {registry : Registry}
    (h : declareItems site items ⟨registry, Symbols.empty.addImport site.own site.own, .closed⟩ =
      .ok declared s) : s.ShowsGlobals (ownGlobal? site.own items) := by
  obtain ⟨hown, hmem⟩ := declareItems_globals h (List.forall_mem_nil _)
  intro name
  have hnew : (name, none) ∉ (Symbols.empty.addImport site.own site.own).signatures :=
    List.not_mem_nil
  have hiff := ((hmem (name, none)).trans (or_iff_left hnew)).symm.trans
    Symbols.mem_signatures_global
  unfold ownGlobal?
  split
  · next h =>
    obtain ⟨g, hg⟩ := Option.isSome_iff_exists.mp (hiff.mp h)
    obtain ⟨hin, hname⟩ := Symbols.mem_of_global? hg
    rw [hg, Option.map_some, ← hown g hin, ← hname]
  · next h =>
    rw [Option.not_isSome_iff_eq_none.mp (fun hsome => h (hiff.mpr hsome)), Option.map_none]

/-- The function is reached when the items of a module are linked: all items have been declared, and
the bodies before its own one have been linked. -/
inductive Reaches (site : Site) (items : List Item) (f : Function) (s : Linking) : Prop
  | intro (registry : Registry) (before after : List Item) {before' : List Item} {s₁ : Linking}
    (declared : declareItems site items ⟨registry, Symbols.empty.addImport site.own site.own,
      .closed⟩ = .ok (before ++ .function f :: after) s₁)
    (linked : linkBodies site before s₁ = .ok before' s)

/-- Where a function is reached the globals that can be found are those of the items. -/
theorem Reaches.showsGlobals {items : List Item} {f : Function} (h : Reaches site items f s) :
    s.ShowsGlobals (ownGlobal? site.own items) := by
  obtain ⟨_, _, _, hdeclared, hlinked⟩ := h
  exact (showsGlobals_of_declareItems hdeclared).of_eq (keepsGlobals_linkBodies _ hlinked)

end Link

end Compilation

end FrontEnd
