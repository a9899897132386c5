import FrontEnd.Proofs.Scoping.Failures

/-!
# Linking follows the rules of lexical scoping

While a function is linked its scopes are kept on a stack that each block pushes to and
pops from. What the stack shows at a place is what can be seen there by the rules, so local
names are bound as the rules say, and the first one that they reject is the first one that
linking fails at.
-/

namespace FrontEnd

namespace Compilation.Link

open Names (Scopes)

variable {α β γ : Type} {site : Site} {globals : String → Option GlobalRef} {σ τ : LexicalScope}
  {outer : List Names.Scope} {locals locals' : List Variable} {s s' : Linking} {ms ms' : List Mention}

theorem bindAllDistant_append_eq_ok (h : bindAllDistant site (ms ++ ms') s = .ok () s') :
    ∃ t, bindAllDistant site ms s = .ok () t ∧ bindAllDistant site ms' t = .ok () s' := by
  induction ms generalizing s with
  | nil => exact ⟨s, rfl, h⟩
  | cons m rest ih =>
    obtain ⟨_, s₁, hm, hrest⟩ := exists_of_bind_eq_ok h
    obtain ⟨t, ht, hlast⟩ := ih hrest
    exact ⟨t, (bind_apply_of_eq_ok hm).trans ht, hlast⟩

theorem bindDistant_of_bindAllDistant {m : Mention} (h : bindAllDistant site [m] s = .ok () s') :
    bindDistant site m s = .ok () s' := by
  obtain ⟨_, s₁, hm, hrest⟩ := exists_of_bind_eq_ok h
  cases hrest
  exact hm

/-- If the names that are no matter of scopes can be bound, the computation does what lexical scoping
says: it fails with the fault, or changes what binding those names changes, `P` holds of the scopes
after it, and its result has the sites. -/
def Follows (site : Site) (ms : List Mention) (result : Except Fault (List LocalSite))
    (P : Scopes → Prop) (sitesOf : α → List LocalSite) (x : Link α) (s : Linking) : Prop :=
  ∀ s', bindAllDistant site ms s = .ok () s' →
    match result with
    | .error fault => ∃ t, x s = .error (site.buffer.locate fault) t
    | .ok sites => ∃ a scopes, x s = .ok a { s' with scopes } ∧ sitesOf a = sites ∧ P scopes

namespace Follows

variable {P Q : Scopes → Prop} {sitesOf : α → List LocalSite} {sitesOf' : β → List LocalSite}
  {sitesOf'' : γ → List LocalSite} {result result' : Except Fault (List LocalSite)}

theorem pure {a : α} {sites : List LocalSite} (hsites : sitesOf a = sites) (hP : P s.scopes) :
    Follows site [] (.ok sites) P sitesOf (Pure.pure a : Link α) s := by
  rintro s' ⟨⟩
  exact ⟨a, s.scopes, rfl, hsites, hP⟩

theorem bind {x : Link α} {f : α → Link β}
    {next : List LocalSite → Except Fault (List LocalSite)} (hglobals : s.ShowsGlobals globals)
    (hx : Follows site ms result P sitesOf x s)
    (hf : ∀ a t, P t.scopes → t.ShowsGlobals globals →
      Follows site ms' (next (sitesOf a)) Q sitesOf' (f a) t) :
    Follows site (ms ++ ms') (result >>= next) Q sitesOf' (x >>= f) s := by
  intro s' h
  obtain ⟨s₁, h₁, h₂⟩ := bindAllDistant_append_eq_ok h
  have hfirst := hx s₁ h₁
  cases result with
  | error fault =>
    obtain ⟨t, ht⟩ := hfirst
    exact ⟨t, bind_apply_of_eq_error ht⟩
  | ok sites =>
    obtain ⟨a, scopes, ha, rfl, hP⟩ := hfirst
    -- The names that are left are bound in the same way with other scopes.
    have hrest := (distant_bindAllDistant ms' h₂).2 scopes
    have hshows := hglobals.of_eq ((distant_bindAllDistant ms h₁).1)
    have hlast := hf a { s₁ with scopes } hP hshows _ hrest
    rw [bind_apply_of_eq_ok ha]
    exact hlast

theorem mapWith {x : Link α} {f : α → β} (hx : Follows site ms result P sitesOf x s)
    (change : List LocalSite → List LocalSite)
    (hsites : ∀ a, sitesOf' (f a) = change (sitesOf a)) :
    Follows site ms (do return change (← result)) P sitesOf' (do return f (← x)) s := by
  intro s' h
  have hfirst := hx s' h
  cases result with
  | error fault =>
    obtain ⟨t, ht⟩ := hfirst
    exact ⟨t, bind_apply_of_eq_error ht⟩
  | ok sites =>
    obtain ⟨a, scopes, ha, rfl, hP⟩ := hfirst
    exact ⟨f a, scopes, bind_apply_of_eq_ok ha, hsites a, hP⟩

theorem inScope {x : Link α} (hs : s.scopes.Opens σ outer locals)
    (hx : Follows site ms result (fun t => ∃ τ, t.Opens τ s.scopes.scopes locals') sitesOf x
      { s with scopes := s.scopes.descend }) :
    Follows site ms result (·.Opens σ outer locals') sitesOf (Link.inScope x) s := by
  intro s' h
  have hinner := hx _ ((distant_bindAllDistant ms h).2 s.scopes.descend)
  unfold Link.inScope
  rw [modify_bind_apply]
  cases result with
  | error fault =>
    obtain ⟨t, ht⟩ := hinner
    exact ⟨t, bind_apply_of_eq_error ht⟩
  | ok sites =>
    obtain ⟨a, scopes, ha, hsites, τ, hτ⟩ := hinner
    refine ⟨a, scopes.ascend, ?_, hsites, hs.ascend hτ⟩
    exact bind_apply_of_eq_ok ha

end Follows

/-! ## Names and declarations -/

/-- A variable is bound by what can be seen if its name has no dot. -/
theorem follows_bindVariable (hs : s.scopes.Opens σ outer locals)
    (hglobals : s.ShowsGlobals globals) {m : Mention} {token : Nat} {path : List String}
    (hm : m = .read token path ∨ m = .write token path) :
    Follows site [m] (σ.use globals token path) (·.Opens σ outer locals)
      (fun binding => LocalSite.ofPath token path (some binding)) (bindVariable site token path)
      s := by
  intro s' h
  have hbind : bindDistant site m =
      if path.length = 1 then Pure.pure () else discard <| bindVariable site token path := by
    rcases hm with rfl | rfl <;> rfl
  have hdistant := bindDistant_of_bindAllDistant h
  rw [hbind] at hdistant
  by_cases hlen : path.length = 1
  · obtain ⟨name, rfl⟩ := List.length_eq_one_iff.mp hlen
    rw [if_pos hlen] at hdistant
    cases hdistant
    simp only [LexicalScope.use, ← hs.find?_eq, ← hglobals name, bindVariable_single_apply]
    cases s.scopes.find? name with
    | some slot => exact ⟨_, _, rfl, rfl, hs⟩
    | none =>
      cases s.symbols.global? name with
      | some g => exact ⟨_, _, rfl, rfl, hs⟩
      | none => exact ⟨_, rfl⟩
  · rw [if_neg hlen] at hdistant
    obtain ⟨binding, s₁, hb, hpure⟩ := exists_of_bind_eq_ok hdistant
    cases hpure
    have hscopes := (distant_bindVariable hlen token).scopes_eq hb
    rw [σ.use_of_ne globals token hlen]
    exact ⟨binding, s'.scopes, hb, LocalSite.ofPath_of_ne hlen _, hscopes ▸ hs⟩

theorem follows_bindCall (hs : s.scopes.Opens σ outer locals) (token : Nat) (path : List String)
    (arity : Nat) : Follows site [.call token path arity] (.ok []) (·.Opens σ outer locals)
      (fun _ => []) (bindCall site token path arity) s := by
  intro s' h
  obtain ⟨candidates, s₁, hb, hpure⟩ := exists_of_bind_eq_ok (bindDistant_of_bindAllDistant h)
  cases hpure
  have hscopes := (distant_bindCall token path arity).scopes_eq hb
  exact ⟨candidates, s'.scopes, hb, rfl, hscopes ▸ hs⟩

/-- A local is declared unless its block has one of the name. -/
theorem follows_declareLocal (hs : s.scopes.Opens σ outer locals) (token : Nat) (name : String)
    (type : Option ValueType) (hasValue : Bool) :
    Follows site [.declare token name hasValue] (σ.declaration token name type locals.length)
      (·.Opens (σ.declare name locals.length) outer (locals ++ [⟨name, type, false⟩]))
      (fun slot => [.declared token name type (some slot)])
      (declareLocal site token name type false) s := by
  intro s' h
  cases bindDistant_of_bindAllDistant h
  unfold LexicalScope.declaration
  rw [declareLocal_apply]
  by_cases hname : name ∈ σ.own
  · rw [if_pos hname, hs.declare?_eq_none hname]
    exact ⟨_, rfl⟩
  · obtain ⟨scopes, hdeclare, hopens⟩ := hs.exists_declare? hname type false
    rw [if_neg hname, hdeclare]
    exact ⟨_, _, rfl, rfl, hopens⟩

/-! ## Both ways -/

/-- The computation follows lexical scoping, and heeds it where it succeeds and where it fails. -/
structure Traces (site : Site) (ms : List Mention) (result : Except Fault (List LocalSite))
    (P : Scopes → Prop) (sitesOf : α → List LocalSite) (x : Link α) (s : Linking) : Prop where
  follows : Follows site ms result P sitesOf x s
  heeds : Heeds site ms result P sitesOf x s

namespace Traces

variable {P Q : Scopes → Prop} {sitesOf : α → List LocalSite} {sitesOf' : β → List LocalSite}
  {sitesOf'' : γ → List LocalSite} {result result' : Except Fault (List LocalSite)}

theorem pure {a : α} {sites : List LocalSite} (hsites : sitesOf a = sites) (hP : P s.scopes) :
    Traces site [] (.ok sites) P sitesOf (Pure.pure a : Link α) s :=
  ⟨.pure hsites hP, .pure hsites hP⟩

theorem bind {x : Link α} {f : α → Link β}
    {next : List LocalSite → Except Fault (List LocalSite)} (hglobals : s.ShowsGlobals globals)
    (hx : Traces site ms result P sitesOf x s)
    (hf : ∀ a t, P t.scopes → t.ShowsGlobals globals →
      Traces site ms' (next (sitesOf a)) Q sitesOf' (f a) t) :
    Traces site (ms ++ ms') (result >>= next) Q sitesOf' (x >>= f) s :=
  ⟨hx.follows.bind hglobals fun a t ht hshows => (hf a t ht hshows).follows,
    hx.heeds.bind hglobals fun a t ht hshows => (hf a t ht hshows).heeds⟩

theorem mapWith {x : Link α} {f : α → β} (hx : Traces site ms result P sitesOf x s)
    (change : List LocalSite → List LocalSite)
    (hsites : ∀ a, sitesOf' (f a) = change (sitesOf a)) :
    Traces site ms (do return change (← result)) P sitesOf' (do return f (← x)) s :=
  ⟨hx.follows.mapWith change hsites, hx.heeds.mapWith change hsites⟩

theorem map {x : Link α} {f : α → β} (hx : Traces site ms result P sitesOf x s)
    (hsites : ∀ a, sitesOf' (f a) = sitesOf a) :
    Traces site ms result P sitesOf' (do return f (← x)) s := by
  have hmap := hx.mapWith id hsites
  rwa [show (do return id (← result)) = result from bind_pure result] at hmap

/-- What is bound first has its sites first. -/
theorem append {x : Link α} {y : Link β} {f : α → β → γ} (hglobals : s.ShowsGlobals globals)
    (hx : Traces site ms result P sitesOf x s)
    (hy : ∀ t, P t.scopes → t.ShowsGlobals globals → Traces site ms' result' Q sitesOf' y t)
    (hsites : ∀ a b, sitesOf'' (f a b) = sitesOf a ++ sitesOf' b) :
    Traces site (ms ++ ms') (do return (← result) ++ (← result')) Q sitesOf''
      (do return f (← x) (← y)) s :=
  hx.bind hglobals fun a t ht hshows => (hy t ht hshows).mapWith (sitesOf a ++ ·) (hsites a)

theorem inScope {x : Link α} (hs : s.scopes.Opens σ outer locals)
    (hx : Traces site ms result (fun t => ∃ τ, t.Opens τ s.scopes.scopes locals') sitesOf x
      { s with scopes := s.scopes.descend }) :
    Traces site ms result (·.Opens σ outer locals') sitesOf (Link.inScope x) s :=
  ⟨.inScope hs hx.follows, .inScope hs hx.heeds⟩

end Traces

theorem traces_bindVariable (hs : s.scopes.Opens σ outer locals)
    (hglobals : s.ShowsGlobals globals) {m : Mention} {token : Nat} {path : List String}
    (hm : m = .read token path ∨ m = .write token path) :
    Traces site [m] (σ.use globals token path) (·.Opens σ outer locals)
      (fun binding => LocalSite.ofPath token path (some binding)) (bindVariable site token path)
      s :=
  ⟨follows_bindVariable hs hglobals hm, heeds_bindVariable hs hglobals hm⟩

theorem traces_bindCall (hs : s.scopes.Opens σ outer locals) (token : Nat) (path : List String)
    (arity : Nat) : Traces site [.call token path arity] (.ok []) (·.Opens σ outer locals)
      (fun _ => []) (bindCall site token path arity) s :=
  ⟨follows_bindCall hs token path arity, heeds_bindCall hs token path arity⟩

theorem traces_declareLocal (hs : s.scopes.Opens σ outer locals) (token : Nat) (name : String)
    (type : Option ValueType) (hasValue : Bool) :
    Traces site [.declare token name hasValue] (σ.declaration token name type locals.length)
      (·.Opens (σ.declare name locals.length) outer (locals ++ [⟨name, type, false⟩]))
      (fun slot => [.declared token name type (some slot)])
      (declareLocal site token name type false) s :=
  ⟨follows_declareLocal hs token name type hasValue, heeds_declareLocal hs token name type hasValue⟩

/-! ## Trees -/

mutual

theorem traces_linkNode : (n : Node) → {σ : LexicalScope} → {outer : List Names.Scope} →
    {locals : List Variable} → {s : Linking} → s.scopes.Opens σ outer locals →
      s.ShowsGlobals globals → Traces site n.mentions (n.resolve globals σ locals.length)
        (·.Opens σ outer (locals ++ variablesOf n.localSites)) Node.localSites (linkNode site n) s
  | .var token path _, σ, outer, locals, s, hs, hglobals => by
    rw [linkNode, Node.mentions, Node.resolve, Node.localSites, variablesOf_ofPath,
      List.append_nil]
    exact (traces_bindVariable hs hglobals (.inl rfl)).map fun _ => by rw [Node.localSites]
  | .call token path arity _, σ, outer, locals, s, hs, hglobals => by
    rw [linkNode, Node.mentions, Node.resolve, Node.localSites, variablesOf_nil, List.append_nil]
    exact (traces_bindCall hs token path arity).map fun _ => by rw [Node.localSites]
  | .cond c, σ, outer, locals, s, hs, hglobals => by
    rw [linkNode, Node.mentions, Node.resolve, Node.localSites]
    exact (traces_linkConditional c hs hglobals).map fun _ => by rw [Node.localSites]
  | .int .., σ, outer, locals, s, hs, _ | .float .., σ, outer, locals, s, hs, _
  | .bool .., σ, outer, locals, s, hs, _ | .op .., σ, outer, locals, s, hs, _ => by
    rw [linkNode, Node.mentions, Node.resolve, Node.localSites, variablesOf_nil, List.append_nil]
    · exact .pure (by rw [Node.localSites]) hs
    all_goals nofun

theorem traces_linkExpr : (e : List Node) → {σ : LexicalScope} → {outer : List Names.Scope} →
    {locals : List Variable} → {s : Linking} → s.scopes.Opens σ outer locals →
      s.ShowsGlobals globals → Traces site (Expr.mentions e)
        (Expr.resolve globals σ locals.length e)
        (·.Opens σ outer (locals ++ variablesOf (Expr.localSites e))) Expr.localSites
        (linkExpr site e) s
  | [], σ, outer, locals, s, hs, _ => by
    rw [linkExpr, Expr.mentions, Expr.resolve, Expr.localSites, variablesOf_nil, List.append_nil]
    exact .pure (by rw [Expr.localSites]) hs
  | n :: rest, σ, outer, locals, s, hs, hglobals => by
    rw [linkExpr, Expr.mentions, Expr.resolve, Expr.localSites, variablesOf_append,
      ← List.append_assoc, ← List.length_append]
    exact (traces_linkNode n hs hglobals).append hglobals
      (fun _ ht hshows => traces_linkExpr rest ht hshows) fun _ _ => by rw [Expr.localSites]

theorem traces_linkConditional : (c : Conditional) → {σ : LexicalScope} → {outer : List Names.Scope} →
    {locals : List Variable} → {s : Linking} → s.scopes.Opens σ outer locals →
      s.ShowsGlobals globals → Traces site c.mentions (c.resolve globals σ locals.length)
        (·.Opens σ outer (locals ++ variablesOf c.localSites)) Conditional.localSites
        (linkConditional site c) s
  | .mk token condition onTrue onFalse _ _, σ, outer, locals, s, hs, hglobals => by
    rw [linkConditional, Conditional.mentions, Conditional.resolve, Conditional.localSites,
      variablesOf_append, variablesOf_append, ← List.append_assoc, ← List.append_assoc,
      List.append_assoc (Expr.mentions condition)]
    dsimp only
    rw [← List.length_append, ← List.length_append]
    refine (traces_linkExpr condition hs hglobals).bind hglobals fun condition' t ht hshows => ?_
    refine (Traces.inScope ht (traces_linkBlock onTrue ht.descend hshows)).bind hshows
      fun onTrue' u hu hshows' => ?_
    exact (Traces.inScope hu (traces_linkBlock onFalse hu.descend hshows')).mapWith
      (Expr.localSites condition' ++ Block.localSites onTrue' ++ ·)
      fun _ => by rw [Conditional.localSites]

theorem traces_linkStatement : (st : Statement) → {σ : LexicalScope} → {outer : List Names.Scope} →
    {locals : List Variable} → {s : Linking} → s.scopes.Opens σ outer locals →
      s.ShowsGlobals globals → Traces site st.mentions (st.resolve globals σ locals.length)
        (·.Opens (σ.after locals.length st) outer (locals ++ variablesOf st.localSites))
        Statement.localSites (linkStatement site st) s
  | .declare token name type value _, σ, outer, locals, s, hs, hglobals => by
    rw [linkStatement, Statement.mentions, Statement.resolve, Statement.localSites,
      LexicalScope.after, variablesOf_append, ← List.append_assoc, ← List.length_append]
    exact (traces_linkExpr value hs hglobals).append hglobals
      (fun _ ht _ => traces_declareLocal ht token name type _)
      fun _ _ => by rw [Statement.localSites]
  | .assign token target value, σ, outer, locals, s, hs, hglobals => by
    rw [linkStatement, Statement.mentions, Statement.resolve, Statement.localSites,
      LexicalScope.after, variablesOf_append, variablesOf_ofPath, List.append_nil]
    · exact (traces_linkExpr value hs hglobals).append hglobals
        (fun _ ht hshows => traces_bindVariable ht hshows (.inr rfl))
        fun _ _ => by rw [Statement.localSites]
    · nofun
  | .eval _ value, σ, outer, locals, s, hs, hglobals
  | .ret _ value, σ, outer, locals, s, hs, hglobals => by
    rw [linkStatement, Statement.mentions, Statement.resolve, Statement.localSites,
      LexicalScope.after]
    · exact (traces_linkExpr value hs hglobals).map fun _ => by rw [Statement.localSites]
    · nofun
  | .cond c, σ, outer, locals, s, hs, hglobals => by
    rw [linkStatement, Statement.mentions, Statement.resolve, Statement.localSites,
      LexicalScope.after]
    · exact (traces_linkConditional c hs hglobals).map fun _ => by rw [Statement.localSites]
    · nofun
  | .loop token condition body, σ, outer, locals, s, hs, hglobals => by
    rw [linkStatement, Statement.mentions, Statement.resolve, Statement.localSites,
      LexicalScope.after, variablesOf_append, ← List.append_assoc]
    · dsimp only
      rw [← List.length_append]
      exact (traces_linkExpr condition hs hglobals).append hglobals
        (fun _ ht hshows => Traces.inScope ht (traces_linkBlock body ht.descend hshows))
        fun _ _ => by rw [Statement.localSites]
    · nofun
  | .exit .., σ, outer, locals, s, hs, _ | .next .., σ, outer, locals, s, hs, _ => by
    rw [linkStatement, Statement.mentions, Statement.resolve, Statement.localSites,
      LexicalScope.after, variablesOf_nil, List.append_nil]
    · exact .pure (by rw [Statement.localSites]) hs
    · nofun

theorem traces_linkBlock : (b : List Statement) → {σ : LexicalScope} → {outer : List Names.Scope} →
    {locals : List Variable} → {s : Linking} → s.scopes.Opens σ outer locals →
      s.ShowsGlobals globals → Traces site (Block.mentions b)
        (Block.resolve globals σ locals.length b)
        (fun t => ∃ τ, t.Opens τ outer (locals ++ variablesOf (Block.localSites b)))
        Block.localSites (linkBlock site b) s
  | [], σ, outer, locals, s, hs, _ => by
    rw [linkBlock, Block.mentions, Block.resolve, Block.localSites, variablesOf_nil,
      List.append_nil]
    exact .pure (by rw [Block.localSites]) ⟨σ, hs⟩
  | st :: rest, σ, outer, locals, s, hs, hglobals => by
    rw [linkBlock, Block.mentions, Block.resolve, Block.localSites, variablesOf_append,
      ← List.append_assoc]
    dsimp only
    rw [← List.length_append]
    exact (traces_linkStatement st hs hglobals).append hglobals
      (fun _ ht hshows => traces_linkBlock rest ht hshows) fun _ _ => by rw [Block.localSites]

end

theorem follows_linkBlock (b : List Statement) (hs : s.scopes.Opens σ outer locals)
    (hglobals : s.ShowsGlobals globals) :
    Follows site (Block.mentions b) (Block.resolve globals σ locals.length b)
      (fun t => ∃ τ, t.Opens τ outer (locals ++ variablesOf (Block.localSites b)))
      Block.localSites (linkBlock site b) s :=
  (traces_linkBlock b hs hglobals).follows

/-! ## Functions -/

/-- Parameters are declared one after the other, unless two have the same name. -/
theorem declareParams_withParams (site : Site) (hs : s.scopes.Opens σ outer locals)
    (params : List Param) :
    match σ.withParams locals.length params with
    | .error fault => ∃ t, declareParams site params s = .error (site.buffer.locate fault) t
    | .ok τ => ∃ scopes : Scopes, declareParams site params s = .ok () { s with scopes } ∧
        scopes.Opens τ outer (locals ++ params.map Param.toVariable) := by
  induction params generalizing σ locals s with
  | nil => exact ⟨s.scopes, rfl, by rwa [List.map_nil, List.append_nil]⟩
  | cons p rest ih =>
    have happly : declareLocal site p.token p.name (some p.type) true s = _ :=
      declareLocal_apply p.token p.name (some p.type) true
    rw [LexicalScope.withParams, declareParams]
    by_cases hname : p.name ∈ σ.own
    · rw [hs.declare?_eq_none hname] at happly
      rw [if_pos hname]
      exact ⟨s, bind_apply_of_eq_error (bind_apply_of_eq_error happly)⟩
    · obtain ⟨scopes, hdeclare, hopens⟩ := hs.exists_declare? hname (some p.type) true
      rw [hdeclare] at happly
      have hlater := ih (s := { s with scopes }) hopens
      rw [List.length_append, List.length_singleton, List.append_assoc,
        List.singleton_append] at hlater
      have hdiscard : (discard (declareLocal site p.token p.name (some p.type) true) : Link Unit) s =
          .ok () { s with scopes } := bind_apply_of_eq_ok happly
      rw [if_neg hname, bind_apply_of_eq_ok hdiscard, List.map_cons]
      exact hlater

/-- Where a function is reached, and the names of its calls and those with a dot can be bound, linking
it does what lexical scoping says about its local names. It fails with the first fault, or every site
is bound to the local that can be seen or else to a global of the module, and the slots are those of
the parameters and of all declarations in their order. -/
theorem linkFunction_lexicalScoping {items : List Item} {f : Function}
    (hreaches : Reaches site items f s)
    (hdistant : bindAllDistant site (Block.mentions f.body) s = .ok () s') :
    match f.resolve (ownGlobal? site.own items) with
    | .error fault => ∃ t, linkFunction site f s = .error (site.buffer.locate fault) t
    | .ok sites => ∃ body, linkFunction site f s = .ok
        { f with
          body
          locals := f.params.map Param.toVariable ++ variablesOf (Block.localSites f.body) }
        { s' with scopes := .closed } ∧ Block.localSites body = sites := by
  have hglobals := hreaches.showsGlobals
  generalize ownGlobal? site.own items = globals at hglobals ⊢
  have hparams := declareParams_withParams site (s := { s with scopes := s.scopes.start })
    (Scopes.opens_start s.scopes) f.params
  rw [List.length_nil] at hparams
  unfold linkFunction Function.resolve
  rw [modify_bind_apply]
  cases hσ : LexicalScope.empty.withParams 0 f.params with
  | error fault =>
    rw [hσ] at hparams
    obtain ⟨t, ht⟩ := hparams
    exact ⟨t, bind_apply_of_eq_error ht⟩
  | ok σ =>
    rw [hσ] at hparams
    obtain ⟨scopes, hrun, hopens⟩ := hparams
    -- Declaring parameters has changed nothing but the scopes, so the other names can be bound still.
    have hbody := follows_linkBlock (s := { s with scopes }) f.body hopens (hglobals.of_eq rfl) _
      ((distant_bindAllDistant _ hdistant).2 scopes)
    rw [List.nil_append, List.length_map] at hbody
    rw [bind_apply_of_eq_ok hrun]
    change match Block.resolve globals σ f.params.length f.body with
      | .error fault => _
      | .ok sites => _
    cases hresult : Block.resolve globals σ f.params.length f.body with
    | error fault =>
      rw [hresult] at hbody
      obtain ⟨t, ht⟩ := hbody
      exact ⟨t, bind_apply_of_eq_error ht⟩
    | ok sites =>
      rw [hresult] at hbody
      obtain ⟨body, scopes', hlink, hsites, τ, hτ⟩ := hbody
      refine ⟨body, ?_, hsites⟩
      rw [bind_apply_of_eq_ok hlink, get_bind_apply, ← hτ.locals_eq]
      rfl

/-- `fn f(a: bool) { x := a if x { x := x x = g } else { m.g } return f(x) }` in a module `m` with a
global `g`: the inner `x` hides the outer one as soon as it has its value, and only in its block. -/
theorem linkFunction_lexicalScoping_shadowing :
    let site : Site := ⟨⟨["m"]⟩, ⟨"m.eb", []⟩, fun _ _ => pure ()⟩
    let g : Global := ⟨0, "g", .bool, true, false, none⟩
    let f : Function :=
      { token := 1, name := "f", isPublic := false, params := [⟨2, "a", .bool⟩],
        returnType := .bool, index := 0, uniqueName := none, locals := [],
        body := [.declare 3 "x" none [.var 4 ["a"] none] none,
          .cond (.ofBlocks 5 [.var 6 ["x"] none]
            [.declare 7 "x" none [.var 8 ["x"] none] none,
              .assign 9 ⟨9, ["x"], none⟩ [.var 10 ["g"] none]]
            [.eval 11 [.var 11 ["m", "g"] none]]),
          .ret 12 [.var 13 ["x"] none, .call 14 ["f"] 1 []]] }
    let declared : Function :=
      { f with uniqueName := some (FunctionRef.uniqueName ⟨⟨["m"]⟩, "f", 1, 0⟩) }
    ∃ s s', Reaches site [.global g, .function f] declared s ∧
      bindAllDistant site (Block.mentions declared.body) s = .ok () s' ∧
      ∃ body, linkFunction site declared s = .ok
        { declared with
          body
          locals := [⟨"a", some .bool, true⟩, ⟨"x", none, false⟩, ⟨"x", none, false⟩] }
        { s' with scopes := .closed } ∧
        Block.localSites body =
          [.used 4 "a" (some (.slot 0)), .declared 3 "x" none (some 1),
            .used 6 "x" (some (.slot 1)), .used 8 "x" (some (.slot 1)),
            .declared 7 "x" none (some 2), .used 10 "g" (some (.global ⟨⟨["m"]⟩, "g"⟩)),
            .used 9 "x" (some (.slot 2)), .used 13 "x" (some (.slot 1))] := by
  intro site g f declared
  have hreaches : Reaches site [.global g, .function f] declared _ :=
    .intro .empty [.global { g with uniqueName := some (GlobalRef.uniqueName ⟨⟨["m"]⟩, "g"⟩) }] [] rfl
      rfl
  exact ⟨_, _, hreaches, rfl, linkFunction_lexicalScoping hreaches rfl⟩

end Compilation.Link

end FrontEnd
