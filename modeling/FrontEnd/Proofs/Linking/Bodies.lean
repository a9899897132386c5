import FrontEnd.Proofs.Linking.Names

/-!
# Linking the bodies of functions

While a module is linked it may refer to its own names, as far as they are declared, and
to those of finished modules. Binding a name may compile further modules, but what was
known stays known, so what has been bound stays resolved.
-/

namespace FrontEnd.Compilation

open Names (FunctionSymbol GlobalSymbol Symbols)
open Text (Position)

theorem exists_of_bind_eq_ok {ε σ α β : Type} {x : EStateM ε σ α} {f : α → EStateM ε σ β}
    {b : β} {s s' : σ} (h : (x >>= f) s = .ok b s') :
    ∃ a t, x s = .ok a t ∧ f a t = .ok b s' := by
  change EStateM.bind x f s = _ at h
  unfold EStateM.bind at h
  cases hx : x s with
  | error e t =>
    rw [hx] at h
    cases h
  | ok a t =>
    rw [hx] at h
    exact ⟨a, t, rfl, h⟩

theorem bind_apply_of_eq_ok {ε σ α β : Type} {x : EStateM ε σ α} {f : α → EStateM ε σ β} {a : α}
    {s t : σ} (h : x s = .ok a t) : (x >>= f) s = f a t := by
  change EStateM.bind x f s = _
  unfold EStateM.bind
  rw [h]

theorem get_bind_apply {ε σ β : Type} (f : σ → EStateM ε σ β) (s : σ) : (get >>= f) s = f s s :=
  rfl

theorem modify_bind_apply {ε σ β : Type} (change : σ → σ) (f : PUnit → EStateM ε σ β) (s : σ) :
    (modify change >>= f) s = f ⟨⟩ (change s) :=
  rfl

/-- A sound registry only grows when a module is asked for, and is sound afterwards. -/
def Site.Reliable (site : Site) : Prop :=
  ∀ path position r r', r.Sound → site.require path position r = .ok () r' → r.Grows r' ∧ r'.Sound

namespace Linking

/-- What may be referred to where a module is being linked. -/
def known (own : ModulePath) (s : Linking) : Known where
  function f := f.ref.module = own ∧ f ∈ s.symbols.functions ∨ s.registry.known.function f
  global g := g.ref.module = own ∧ g ∈ s.symbols.globals ∨ s.registry.known.global g

def resolution (own : ModulePath) (s : Linking) : Resolution := (s.known own).resolution own

structure Ready (own : ModulePath) (s : Linking) : Prop where
  sound : s.registry.Sound
  names : s.symbols.Of own

/-- Modules may have been compiled, but the linked module has not declared anything. -/
structure Leads (s s' : Linking) : Prop where
  grows : s.registry.Grows s'.registry
  sound : s.registry.Sound → s'.registry.Sound
  functions : s'.symbols.functions = s.symbols.functions
  globals : s'.symbols.globals = s.symbols.globals

variable {own : ModulePath} {s s' s'' : Linking}

theorem Leads.refl (s : Linking) : s.Leads s := ⟨.refl _, id, rfl, rfl⟩

theorem Leads.trans (h : s.Leads s') (h' : s'.Leads s'') : s.Leads s'' :=
  ⟨h.grows.trans h'.grows, h'.sound ∘ h.sound, h'.functions.trans h.functions,
    h'.globals.trans h.globals⟩

theorem Leads.ready (h : s.Leads s') (hs : s.Ready own) : s'.Ready own := by
  refine ⟨h.sound hs.sound, ?_, ?_, ?_⟩
  · rw [h.functions]
    exact hs.names.functions
  · rw [h.globals]
    exact hs.names.globals
  · rw [h.functions]
    exact hs.names.distinct

theorem Leads.known (h : s.Leads s') (hs : s.Ready own) : (s.known own).Implies (s'.known own) := by
  have hkept := Registry.known_implies fun _ _ => h.grows.module? hs.sound.consistent
  refine ⟨?_, ?_⟩
  · rintro f (⟨hown, hf⟩ | hf)
    · exact .inl ⟨hown, h.functions ▸ hf⟩
    · exact .inr (hkept.function f hf)
  · rintro g (⟨hown, hg⟩ | hg)
    · exact .inl ⟨hown, h.globals ▸ hg⟩
    · exact .inr (hkept.global g hg)

theorem Leads.resolution (h : s.Leads s') (hs : s.Ready own) :
    (s.resolution own).Implies (s'.resolution own) :=
  (h.known hs).resolution own

end Linking

namespace Link

variable {site : Site} {s s' : Linking}

theorem onRegistry_eq_ok {α : Type} {x : Compile α} {a : α}
    (h : onRegistry x s = .ok a s') :
    ∃ registry, x s.registry = .ok a registry ∧ s' = { s with registry } := by
  unfold onRegistry at h
  cases hx : x s.registry with
  | error d registry =>
    rw [hx] at h
    cases h
  | ok a registry =>
    rw [hx] at h
    cases h
    exact ⟨registry, rfl, rfl⟩

theorem importModule_leads (hsite : site.Reliable) (hs : s.registry.Sound)
    {target handle : ModulePath} {token : Nat}
    (h : importModule site target handle token s = .ok () s') : s.Leads s' := by
  obtain ⟨_, t, hrequire, hmodify⟩ := exists_of_bind_eq_ok h
  obtain ⟨registry, hr, rfl⟩ := onRegistry_eq_ok hrequire
  cases hmodify
  obtain ⟨hgrows, hsound⟩ := hsite _ _ _ _ hs hr
  exact ⟨hgrows, fun _ => hsound, rfl, rfl⟩

theorem targetModule_leads (hsite : site.Reliable) (hs : s.registry.Sound)
    {leading : List String} {token : Nat} {target : ModulePath}
    (h : targetModule site leading token s = .ok target s') : s.Leads s' := by
  obtain ⟨_, _, hget, hrest⟩ := exists_of_bind_eq_ok h
  cases hget
  cases ht : s.symbols.target? ⟨leading⟩ with
  | some known =>
    simp only [ht] at hrest
    cases hrest
    exact .refl s
  | none =>
    simp only [ht] at hrest
    obtain ⟨_, _, himport, hpure⟩ := exists_of_bind_eq_ok hrest
    cases hpure
    exact importModule_leads hsite hs himport

/-- The names of a module are known where they are asked for. -/
theorem symbolsOf_known (hs : s.Ready site.own) {path : ModulePath} {symbols : Symbols}
    (h : symbolsOf site path s = .ok symbols s') :
    s' = s ∧ symbols.Of path ∧ (∀ f ∈ symbols.functions, (s.known site.own).function f) ∧
      ∀ g ∈ symbols.globals, (s.known site.own).global g := by
  obtain ⟨_, _, hget, hrest⟩ := exists_of_bind_eq_ok h
  cases hget
  by_cases hown : path = site.own
  · rw [if_pos hown] at hrest
    cases hrest
    subst hown
    exact ⟨rfl, hs.names, fun f hf => .inl ⟨hs.names.functions f hf, hf⟩,
      fun g hg => .inl ⟨hs.names.globals g hg, hg⟩⟩
  · rw [if_neg hown] at hrest
    cases hrest
    refine ⟨rfl, ?_⟩
    cases hm : s.registry.module? path with
    | none => exact ⟨Symbols.of_empty path, List.forall_mem_nil _, List.forall_mem_nil _⟩
    | some m =>
      obtain ⟨rfl, hsound⟩ := hs.sound.modules path m hm
      have hnames := hsound.names
      refine ⟨hnames, fun f hf => .inr ⟨m, ?_, hf⟩, fun g hg => .inr ⟨m, ?_, hg⟩⟩
      · rwa [hnames.functions f hf]
      · rwa [hnames.globals g hg]

theorem dropLast_isEmpty_iff {path : List String} {name : String}
    (hname : path.getLast? = some name) : path.dropLast.isEmpty = true ↔ path.length = 1 := by
  obtain ⟨leading, rfl⟩ := List.getLast?_eq_some_iff.mp hname
  simp

theorem addExternal_leads {ref : GlobalRef}
    (h : modifySymbols (·.addExternal ref) s = .ok () s') : s.Leads s' := by
  cases h
  refine ⟨.refl _, id, ?_, ?_⟩
  · change (Symbols.addExternal _ _).functions = _
    unfold Symbols.addExternal
    split <;> rfl
  · change (Symbols.addExternal _ _).globals = _
    unfold Symbols.addExternal
    split <;> rfl

/-- A name without a dot is that of a local, or of a global of the module itself. -/
theorem bindVariable_single (hs : s.Ready site.own) {token : Nat} {name : String}
    {binding : Binding} (h : bindVariable site token [name] s = .ok binding s') :
    s.Leads s' ∧ (s'.known site.own).Binds site.own [name] (some binding) := by
  unfold bindVariable at h
  simp only [List.getLast?_singleton, List.dropLast_singleton, List.isEmpty_nil, if_true] at h
  obtain ⟨_, _, hget, hrest⟩ := exists_of_bind_eq_ok h
  cases hget
  cases hslot : s.scopes.find? name with
  | some slot =>
    simp only [hslot] at hrest
    cases hrest
    exact ⟨.refl s, .slot slot rfl⟩
  | none =>
    cases hg : s.symbols.global? name with
    | none =>
      simp only [hslot, hg] at hrest
      cases hrest
    | some g =>
      simp only [hslot, hg] at hrest
      cases hrest
      obtain ⟨hmem, hgname⟩ := Symbols.mem_of_global? hg
      have hown := hs.names.globals g hmem
      exact ⟨.refl s, .global (.inl ⟨hown, hmem⟩) (by rw [hgname]; rfl) (.inl hown)
        (fun _ => hown)⟩

/-- A dotted name is that of a global of the module that it names. -/
theorem bindVariable_dotted (hsite : site.Reliable) (hs : s.Ready site.own) {token : Nat}
    {path : List String} {binding : Binding} (hlen : path.length ≠ 1)
    (h : bindVariable site token path s = .ok binding s') :
    s.Leads s' ∧ (s'.known site.own).Binds site.own path (some binding) := by
  unfold bindVariable at h
  cases hname : path.getLast? with
  | none =>
    rw [hname] at h
    cases h
  | some name =>
    simp only [hname] at h
    rw [if_neg (by rwa [dropLast_isEmpty_iff hname])] at h
    obtain ⟨target, s₁, htarget, hrest⟩ := exists_of_bind_eq_ok h
    have hleads := targetModule_leads hsite hs.sound htarget
    obtain ⟨symbols, s₂, hsymbols, hlast⟩ := exists_of_bind_eq_ok hrest
    obtain ⟨rfl, hof, -, hglobals⟩ := symbolsOf_known (hleads.ready hs) hsymbols
    cases hg : symbols.global? name with
    | none =>
      rw [hg] at hlast
      cases hlast
    | some g =>
      obtain ⟨hmem, hgname⟩ := Symbols.mem_of_global? hg
      have hbinds : g.ref.module = site.own ∨ g.isPublic = true →
          (s₂.known site.own).Binds site.own path (some (.global g.ref)) := fun hvisible =>
        .global (hglobals g hmem) (by rw [hname, hgname]) hvisible (fun h => absurd h hlen)
      simp only [hg] at hlast
      by_cases hown : target = site.own
      · rw [if_pos hown] at hlast
        cases hlast
        exact ⟨hleads, hbinds (.inl ((hof.globals g hmem).trans hown))⟩
      · rw [if_neg hown] at hlast
        by_cases hpublic : g.isPublic = true
        · rw [if_pos hpublic] at hlast
          obtain ⟨_, s₃, hexternal, hpure⟩ := exists_of_bind_eq_ok hlast
          cases hpure
          have hleads' := addExternal_leads hexternal
          have himplies := hleads'.resolution (hleads.ready hs)
          exact ⟨hleads.trans hleads', himplies.allowsVariable _ _ (hbinds (.inr hpublic))⟩
        · rw [if_neg hpublic] at hlast
          cases hlast

/-- A variable is bound to what it may refer to. -/
theorem bindVariable_binds (hsite : site.Reliable) (hs : s.Ready site.own) {token : Nat}
    {path : List String} {binding : Binding}
    (h : bindVariable site token path s = .ok binding s') :
    s.Leads s' ∧ (s'.known site.own).Binds site.own path (some binding) := by
  by_cases hlen : path.length = 1
  · obtain ⟨name, rfl⟩ := List.length_eq_one_iff.mp hlen
    exact bindVariable_single hs h
  · exact bindVariable_dotted hsite hs hlen h

theorem exists_of_candidates {symbols : List FunctionSymbol} (hlen : symbols.length ≤ 1)
    {token : Nat} {path : List String} {candidates : List FunctionRef}
    (h : (if symbols.isEmpty then unresolved site token path
      else pure (symbols.map (·.ref)) : Link _) s = .ok candidates s') :
    s' = s ∧ ∃ f ∈ symbols, candidates = [f.ref] := by
  rcases symbols with _ | ⟨f, _ | ⟨f', rest⟩⟩
  · cases h
  · cases h
    exact ⟨rfl, f, List.mem_cons_self, rfl⟩
  · rw [List.length_cons, List.length_cons] at hlen
    omega

theorem bindCall_single (hs : s.Ready site.own) {token arity : Nat} {name : String}
    {candidates : List FunctionRef} (h : bindCall site token [name] arity s = .ok candidates s') :
    s.Leads s' ∧ (s'.known site.own).Calls site.own [name] arity candidates := by
  obtain ⟨_, _, hget, hrest⟩ := exists_of_bind_eq_ok h
  cases hget
  obtain ⟨rfl, f, hf, rfl⟩ :=
    exists_of_candidates (Symbols.length_functionsOf_le hs.names name arity) hrest
  obtain ⟨hmem, hfname, harity⟩ := Symbols.mem_functionsOf.mp hf
  have hown := hs.names.functions f hmem
  exact ⟨.refl s', .one (.inl ⟨hown, hmem⟩) (by rw [hfname]; rfl) harity (.inl hown)
    (fun _ => hown)⟩

theorem bindCall_dotted (hsite : site.Reliable) (hs : s.Ready site.own) {token arity : Nat}
    {path : List String} {candidates : List FunctionRef} (hlen : path.length ≠ 1)
    (h : bindCall site token path arity s = .ok candidates s') :
    s.Leads s' ∧ (s'.known site.own).Calls site.own path arity candidates := by
  unfold bindCall at h
  cases hname : path.getLast? with
  | none =>
    rw [hname] at h
    cases h
  | some name =>
    simp only [hname] at h
    rw [if_neg (by rwa [dropLast_isEmpty_iff hname])] at h
    obtain ⟨target, s₁, htarget, hrest⟩ := exists_of_bind_eq_ok h
    have hleads := targetModule_leads hsite hs.sound htarget
    obtain ⟨symbols, s₂, hsymbols, hlast⟩ := exists_of_bind_eq_ok hrest
    obtain ⟨rfl, hof, hfunctions, -⟩ := symbolsOf_known (hleads.ready hs) hsymbols
    have hcount : ((symbols.functionsOf name arity).filter fun f =>
        target = site.own || f.isPublic).length ≤ 1 :=
      Nat.le_trans (List.length_filter_le _ _) (Symbols.length_functionsOf_le hof name arity)
    obtain ⟨rfl, f, hf, rfl⟩ := exists_of_candidates hcount hlast
    obtain ⟨hf', hvisible⟩ := List.mem_filter.mp hf
    obtain ⟨hmem, hfname, harity⟩ := Symbols.mem_functionsOf.mp hf'
    have hfmodule := hof.functions f hmem
    have hvisible' : f.ref.module = site.own ∨ f.isPublic = true := by
      simpa [hfmodule] using hvisible
    exact ⟨hleads, .one (hfunctions f hmem) (by rw [hname, hfname]) harity hvisible'
      (fun h => absurd h hlen)⟩

/-- A call is bound to the one function that it may mean. -/
theorem bindCall_calls (hsite : site.Reliable) (hs : s.Ready site.own) {token arity : Nat}
    {path : List String} {candidates : List FunctionRef}
    (h : bindCall site token path arity s = .ok candidates s') :
    s.Leads s' ∧ (s'.known site.own).Calls site.own path arity candidates := by
  by_cases hlen : path.length = 1
  · obtain ⟨name, rfl⟩ := List.length_eq_one_iff.mp hlen
    exact bindCall_single hs h
  · exact bindCall_dotted hsite hs hlen h

theorem inScope_eq_ok {α : Type} {x : Link α} {a : α} (h : inScope x s = .ok a s') :
    ∃ t, x { s with scopes := s.scopes.descend } = .ok a t ∧
      s' = { t with scopes := t.scopes.ascend } := by
  obtain ⟨_, s₁, hdescend, hrest⟩ := exists_of_bind_eq_ok h
  cases hdescend
  obtain ⟨a', t, hx, hlast⟩ := exists_of_bind_eq_ok hrest
  obtain ⟨_, s₂, hascend, hpure⟩ := exists_of_bind_eq_ok hlast
  cases hascend
  cases hpure
  exact ⟨t, hx, rfl⟩

/-- The scope of a block does not matter to what its names may refer to. -/
theorem inScope_resolved {x : Link (List Statement)} {b : List Statement}
    (hx : ∀ {t t'}, x t = .ok b t' → t.Ready site.own →
      t.Leads t' ∧ Block.Resolved (t'.resolution site.own) b)
    (h : inScope x s = .ok b s') (hs : s.Ready site.own) :
    s.Leads s' ∧ Block.Resolved (s'.resolution site.own) b := by
  obtain ⟨t, ht, rfl⟩ := inScope_eq_ok h
  obtain ⟨hleads, hb⟩ := hx ht ⟨hs.sound, hs.names⟩
  exact ⟨⟨hleads.grows, hleads.sound, hleads.functions, hleads.globals⟩, hb⟩

theorem declareLocal_leads {token slot : Nat} {name : String} {type : Option ValueType}
    {isParam : Bool} (h : declareLocal site token name type isParam s = .ok slot s') :
    s.Leads s' := by
  obtain ⟨_, s₁, hget, hrest⟩ := exists_of_bind_eq_ok h
  cases hget
  cases hd : s.scopes.declare? name type isParam with
  | none =>
    simp only [hd] at hrest
    cases hrest
  | some declared =>
    simp only [hd] at hrest
    cases hrest
    exact ⟨.refl _, id, rfl, rfl⟩

mutual

theorem linkNode_resolved (hsite : site.Reliable) : (n : Node) → {n' : Node} → {s s' : Linking} →
    linkNode site n s = .ok n' s' → s.Ready site.own →
      s.Leads s' ∧ n'.Resolved (s'.resolution site.own)
  | .var token path _, n', s, s', h, hs => by
    rw [linkNode] at h
    obtain ⟨binding, t, hb, hpure⟩ := exists_of_bind_eq_ok h
    cases hpure
    exact bindVariable_binds hsite hs hb
  | .call token path arity _, n', s, s', h, hs => by
    rw [linkNode] at h
    obtain ⟨candidates, t, hc, hpure⟩ := exists_of_bind_eq_ok h
    cases hpure
    exact bindCall_calls hsite hs hc
  | .cond c, n', s, s', h, hs => by
    rw [linkNode] at h
    obtain ⟨c', t, hc, hpure⟩ := exists_of_bind_eq_ok h
    cases hpure
    exact linkConditional_resolved hsite c hc hs
  | .int _ _ _, n', s, s', h, hs | .float _ _ _, n', s, s', h, hs | .bool _ _, n', s, s', h, hs
  | .op _ _, n', s, s', h, hs => by
    cases h
    exact ⟨.refl s, trivial⟩

theorem linkExpr_resolved (hsite : site.Reliable) : (e : List Node) → {e' : List Node} →
    {s s' : Linking} → linkExpr site e s = .ok e' s' → s.Ready site.own →
      s.Leads s' ∧ Expr.Resolved (s'.resolution site.own) e'
  | [], e', s, s', h, hs => by
    cases h
    exact ⟨.refl s, trivial⟩
  | n :: rest, e', s, s', h, hs => by
    rw [linkExpr] at h
    obtain ⟨n', s₁, hn, htail⟩ := exists_of_bind_eq_ok h
    obtain ⟨rest', s₂, hrest, hpure⟩ := exists_of_bind_eq_ok htail
    cases hpure
    obtain ⟨hleads, hn'⟩ := linkNode_resolved hsite n hn hs
    obtain ⟨hleads', hrest'⟩ := linkExpr_resolved hsite rest hrest (hleads.ready hs)
    have hkept := hleads'.resolution (hleads.ready hs)
    exact ⟨hleads.trans hleads', Node.Resolved.mono hkept n' hn', hrest'⟩

theorem linkConditional_resolved (hsite : site.Reliable) : (c : Conditional) →
    {c' : Conditional} → {s s' : Linking} → linkConditional site c s = .ok c' s' →
      s.Ready site.own → s.Leads s' ∧ c'.Resolved (s'.resolution site.own)
  | .mk token condition onTrue onFalse _ _, c', s, s', h, hs => by
    rw [linkConditional] at h
    obtain ⟨condition', s₁, hc, hrest⟩ := exists_of_bind_eq_ok h
    obtain ⟨onTrue', s₂, ht, hlast⟩ := exists_of_bind_eq_ok hrest
    obtain ⟨onFalse', s₃, hf, hpure⟩ := exists_of_bind_eq_ok hlast
    cases hpure
    obtain ⟨hleads₁, hc'⟩ := linkExpr_resolved hsite condition hc hs
    have hs₁ := hleads₁.ready hs
    obtain ⟨hleads₂, ht'⟩ := inScope_resolved (linkBlock_resolved hsite onTrue) ht hs₁
    obtain ⟨hleads₃, hf'⟩ :=
      inScope_resolved (linkBlock_resolved hsite onFalse) hf (hleads₂.ready hs₁)
    exact ⟨(hleads₁.trans hleads₂).trans hleads₃,
      Expr.Resolved.mono ((hleads₂.trans hleads₃).resolution hs₁) _ hc',
      Block.Resolved.mono (hleads₃.resolution (hleads₂.ready hs₁)) _ ht', hf'⟩

theorem linkStatement_resolved (hsite : site.Reliable) : (st : Statement) → {st' : Statement} →
    {s s' : Linking} → linkStatement site st s = .ok st' s' → s.Ready site.own →
      s.Leads s' ∧ st'.Resolved (s'.resolution site.own)
  | .declare token name type value _, st', s, s', h, hs => by
    rw [linkStatement] at h
    obtain ⟨value', s₁, hv, hrest⟩ := exists_of_bind_eq_ok h
    obtain ⟨slot, s₂, hd, hpure⟩ := exists_of_bind_eq_ok hrest
    cases hpure
    obtain ⟨hleads, hv'⟩ := linkExpr_resolved hsite value hv hs
    have hleads' := declareLocal_leads hd
    have hkept := hleads'.resolution (hleads.ready hs)
    exact ⟨hleads.trans hleads', Expr.Resolved.mono hkept _ hv', rfl⟩
  | .assign token target value, st', s, s', h, hs => by
    rw [linkStatement] at h
    obtain ⟨value', s₁, hv, hrest⟩ := exists_of_bind_eq_ok h
    obtain ⟨binding, s₂, hb, hpure⟩ := exists_of_bind_eq_ok hrest
    cases hpure
    obtain ⟨hleads, hv'⟩ := linkExpr_resolved hsite value hv hs
    obtain ⟨hleads', hb'⟩ := bindVariable_binds hsite (hleads.ready hs) hb
    have hkept := hleads'.resolution (hleads.ready hs)
    exact ⟨hleads.trans hleads', Expr.Resolved.mono hkept _ hv', hb'⟩
  | .eval token value, st', s, s', h, hs | .ret token value, st', s, s', h, hs => by
    rw [linkStatement] at h
    obtain ⟨value', s₁, hv, hpure⟩ := exists_of_bind_eq_ok h
    cases hpure
    exact linkExpr_resolved hsite value hv hs
  | .cond c, st', s, s', h, hs => by
    rw [linkStatement] at h
    obtain ⟨c', s₁, hc, hpure⟩ := exists_of_bind_eq_ok h
    cases hpure
    exact linkConditional_resolved hsite c hc hs
  | .loop token condition body, st', s, s', h, hs => by
    rw [linkStatement] at h
    obtain ⟨condition', s₁, hc, hrest⟩ := exists_of_bind_eq_ok h
    obtain ⟨body', s₂, hb, hpure⟩ := exists_of_bind_eq_ok hrest
    cases hpure
    obtain ⟨hleads, hc'⟩ := linkExpr_resolved hsite condition hc hs
    obtain ⟨hleads', hb'⟩ :=
      inScope_resolved (linkBlock_resolved hsite body) hb (hleads.ready hs)
    have hkept := hleads'.resolution (hleads.ready hs)
    exact ⟨hleads.trans hleads', Expr.Resolved.mono hkept _ hc', hb'⟩
  | .exit _ _, st', s, s', h, hs | .next _, st', s, s', h, hs => by
    cases h
    exact ⟨.refl s, trivial⟩

theorem linkBlock_resolved (hsite : site.Reliable) : (b : List Statement) →
    {b' : List Statement} → {s s' : Linking} → linkBlock site b s = .ok b' s' →
      s.Ready site.own → s.Leads s' ∧ Block.Resolved (s'.resolution site.own) b'
  | [], b', s, s', h, hs => by
    cases h
    exact ⟨.refl s, trivial⟩
  | st :: rest, b', s, s', h, hs => by
    rw [linkBlock] at h
    obtain ⟨st', s₁, hst, htail⟩ := exists_of_bind_eq_ok h
    obtain ⟨rest', s₂, hrest, hpure⟩ := exists_of_bind_eq_ok htail
    cases hpure
    obtain ⟨hleads, hst'⟩ := linkStatement_resolved hsite st hst hs
    obtain ⟨hleads', hrest'⟩ := linkBlock_resolved hsite rest hrest (hleads.ready hs)
    have hkept := hleads'.resolution (hleads.ready hs)
    exact ⟨hleads.trans hleads', Statement.Resolved.mono hkept st' hst', hrest'⟩

end

end Link

end FrontEnd.Compilation
