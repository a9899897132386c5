import FrontEnd.Proofs.Binding.Lookup

/-!
# Where linking a body fails

Linking a body fails where a local name stands for nothing or is declared twice by the
rules of lexical scoping, or for a reason apart from these: a call or a name with a dot
stands for nothing, or the module that it names is not granted. Which comes first is left
open, but a failure of the first kind is the fault that the rules find.
-/

namespace FrontEnd.Compilation

/-- Some requests have been granted on the way from the one state of the files to the other. -/
def Site.LeadsTo (site : Site) (r r' : Registry) : Prop := ∃ qs, site.Granted qs r r'

namespace Site.LeadsTo

variable {site : Site} {r r' r'' : Registry}

theorem refl (r : Registry) : site.LeadsTo r r := ⟨[], .nil⟩

theorem single {target : ModulePath} {token : Nat}
    (h : site.require target (site.buffer.position token) r = .ok () r') : site.LeadsTo r r' :=
  ⟨[⟨token, target, target, false⟩], .cons h .nil⟩

theorem trans (h : site.LeadsTo r r') (h' : site.LeadsTo r' r'') : site.LeadsTo r r'' :=
  let ⟨_, hqs⟩ := h
  let ⟨_, hqs'⟩ := h'
  ⟨_, hqs.append hqs'⟩

end Site.LeadsTo

namespace Link

open Names (Scopes)

variable {α β γ : Type} {site : Site} {globals : String → Option GlobalRef} {σ τ : LexicalScope}
  {outer : List Names.Scope} {locals locals' : List Variable} {s s' : Linking}
  {ms ms' : List Mention} {d : Diagnostic} {r r' : Registry}

theorem Makes.leadsTo {T : Nat → Prop} {qs : List Request} {Q : α → Prop} {x : Link α} {a : α}
    (h : Makes site T qs Q x s) (hx : x s = .ok a s') : site.LeadsTo s.registry s'.registry := by
  unfold Makes at h
  rw [hx] at h
  exact ⟨_, h.1⟩

/-- A failure that is no matter of local names: a call or a name with a dot stands for nothing, or
its module has been asked for, after others that were granted from `r` on, and was not granted. -/
inductive FailsApart (site : Site) (r : Registry) (ms : List Mention) : Diagnostic → Prop
  | refused {m : Mention} {r₁ r' : Registry} {d : Diagnostic} (mem : m ∈ ms)
    (dotted : m.path.length ≠ 1) (leads : site.LeadsTo r r₁)
    (refused : site.require ⟨m.path.dropLast⟩ (site.buffer.position m.token) r₁ = .error d r') :
    FailsApart site r ms d
  | unresolved {m : Mention} (mem : m ∈ ms) (apart : m.isCall = true ∨ m.path.length ≠ 1) :
    FailsApart site r ms (site.buffer.locate ⟨m.token, .unresolvedIdentifier (joinDots m.path)⟩)

namespace FailsApart

/-- Only calls and names with a dot matter. -/
theorem of_apart (h : FailsApart site r ms d)
    (hsub : ∀ m ∈ ms, m.isCall = true ∨ m.path.length ≠ 1 → m ∈ ms') :
    FailsApart site r ms' d := by
  cases h with
  | refused mem dotted leads refused =>
    exact .refused (hsub _ mem (.inr dotted)) dotted leads refused
  | unresolved mem apart => exact .unresolved (hsub _ mem apart) apart

theorem mono (h : FailsApart site r ms d) (hsub : ms ⊆ ms') : FailsApart site r ms' d :=
  h.of_apart fun _ hm _ => hsub hm

theorem after (h : FailsApart site r' ms d) (hleads : site.LeadsTo r r') :
    FailsApart site r ms d := by
  cases h with
  | refused mem dotted leads refused =>
    exact .refused mem dotted (hleads.trans leads) refused
  | unresolved mem apart => exact .unresolved mem apart

end FailsApart

/-- If the computation succeeds, lexical scoping has no fault and says what the sites of the result
are, `P` holds of the scopes, no global has been declared, and the files have changed by requests
that were granted. If it fails, it does so apart from scopes or with the fault that lexical scoping
has. -/
def Heeds (site : Site) (ms : List Mention) (result : Except Fault (List LocalSite))
    (P : Scopes → Prop) (sitesOf : α → List LocalSite) (x : Link α) (s : Linking) : Prop :=
  match x s with
  | .ok a s' => result = .ok (sitesOf a) ∧ P s'.scopes ∧
      s'.symbols.globals = s.symbols.globals ∧ site.LeadsTo s.registry s'.registry
  | .error d _ => FailsApart site s.registry ms d ∨
      ∃ fault, result = .error fault ∧ d = site.buffer.locate fault

namespace Heeds

variable {P Q : Scopes → Prop} {sitesOf : α → List LocalSite} {sitesOf' : β → List LocalSite}
  {result : Except Fault (List LocalSite)}

theorem of_ok {x : Link α} (h : Heeds site ms result P sitesOf x s) {a : α}
    (hx : x s = .ok a s') :
    result = .ok (sitesOf a) ∧ P s'.scopes ∧
      s'.symbols.globals = s.symbols.globals ∧ site.LeadsTo s.registry s'.registry := by
  unfold Heeds at h
  rwa [hx] at h

theorem of_error {x : Link α} (h : Heeds site ms result P sitesOf x s)
    (hx : x s = .error d s') :
    FailsApart site s.registry ms d ∨
      ∃ fault, result = .error fault ∧ d = site.buffer.locate fault := by
  unfold Heeds at h
  rwa [hx] at h

/-- What a success and what a failure says can be shown by itself. -/
theorem intro {x : Link α}
    (hok : ∀ {a s'}, x s = .ok a s' →
      result = .ok (sitesOf a) ∧ P s'.scopes ∧
        s'.symbols.globals = s.symbols.globals ∧ site.LeadsTo s.registry s'.registry)
    (herror : ∀ {d s'}, x s = .error d s' → FailsApart site s.registry ms d ∨
      ∃ fault, result = .error fault ∧ d = site.buffer.locate fault) :
    Heeds site ms result P sitesOf x s := by
  unfold Heeds
  cases hx : x s with
  | ok a s' => exact hok hx
  | error d s' => exact herror hx

theorem pure {a : α} {sites : List LocalSite} (hsites : sitesOf a = sites) (hP : P s.scopes) :
    Heeds site [] (.ok sites) P sitesOf (Pure.pure a : Link α) s :=
  ⟨congrArg Except.ok hsites.symm, hP, rfl, .refl s.registry⟩

theorem bind {x : Link α} {f : α → Link β}
    {next : List LocalSite → Except Fault (List LocalSite)} (hglobals : s.ShowsGlobals globals)
    (hx : Heeds site ms result P sitesOf x s)
    (hf : ∀ a t, P t.scopes → t.ShowsGlobals globals →
      Heeds site ms' (next (sitesOf a)) Q sitesOf' (f a) t) :
    Heeds site (ms ++ ms') (result >>= next) Q sitesOf' (x >>= f) s := by
  refine intro (fun {b s'} hok => ?_) fun {d s'} herror => ?_
  · obtain ⟨a, t, ha, hb⟩ := exists_of_bind_eq_ok hok
    obtain ⟨rfl, hP, hsame, hleads⟩ := hx.of_ok ha
    obtain ⟨hresult, hQ, hsame', hleads'⟩ := (hf a t hP (hglobals.of_eq hsame)).of_ok hb
    exact ⟨hresult, hQ, hsame'.trans hsame, hleads.trans hleads'⟩
  · rcases exists_of_bind_eq_error herror with ha | ⟨a, t, ha, hb⟩
    · rcases hx.of_error ha with hapart | ⟨fault, rfl, hd⟩
      · exact .inl (hapart.mono (List.subset_append_left _ _))
      · exact .inr ⟨fault, rfl, hd⟩
    · obtain ⟨rfl, hP, hsame, hleads⟩ := hx.of_ok ha
      exact ((hf a t hP (hglobals.of_eq hsame)).of_error hb).imp_left
        fun hapart => (hapart.mono (List.subset_append_right _ _)).after hleads

theorem mapWith {x : Link α} {f : α → β} (hx : Heeds site ms result P sitesOf x s)
    (change : List LocalSite → List LocalSite)
    (hsites : ∀ a, sitesOf' (f a) = change (sitesOf a)) :
    Heeds site ms (do return change (← result)) P sitesOf' (do return f (← x)) s := by
  refine intro (fun {b s'} hok => ?_) fun {d s'} herror => ?_
  · obtain ⟨a, t, ha, hb⟩ := exists_of_bind_eq_ok hok
    obtain ⟨rfl, hP, hkept⟩ := hx.of_ok ha
    cases hb
    exact ⟨congrArg Except.ok (hsites a).symm, hP, hkept⟩
  · rcases exists_of_bind_eq_error herror with ha | ⟨a, t, ha, hb⟩
    · refine (hx.of_error ha).imp_right fun hfault => ?_
      obtain ⟨fault, rfl, hd⟩ := hfault
      exact ⟨fault, rfl, hd⟩
    · cases hb

theorem inScope {x : Link α} (hs : s.scopes.Opens σ outer locals)
    (hx : Heeds site ms result (fun t => ∃ τ, t.Opens τ s.scopes.scopes locals') sitesOf x
      { s with scopes := s.scopes.descend }) :
    Heeds site ms result (·.Opens σ outer locals') sitesOf (Link.inScope x) s := by
  refine intro (fun {a s'} hok => ?_) fun {d s'} herror => ?_
  · obtain ⟨t, ht, rfl⟩ := inScope_eq_ok hok
    obtain ⟨hresult, ⟨τ, hτ⟩, hkept⟩ := hx.of_ok ht
    exact ⟨hresult, hs.ascend hτ, hkept⟩
  · unfold Link.inScope at herror
    rw [modify_bind_apply] at herror
    rcases exists_of_bind_eq_error herror with hx' | ⟨_, _, _, hrest⟩
    · exact hx.of_error hx'
    · cases hrest

end Heeds

/-! ## Names and declarations -/

theorem heeds_bindVariable (hs : s.scopes.Opens σ outer locals)
    (hglobals : s.ShowsGlobals globals) {m : Mention} {token : Nat} {path : List String}
    (hm : m = .read token path ∨ m = .write token path) :
    Heeds site [m] (σ.use globals token path) (·.Opens σ outer locals)
      (fun binding => LocalSite.ofPath token path (some binding)) (bindVariable site token path)
      s := by
  by_cases hlen : path.length = 1
  · obtain ⟨name, rfl⟩ := List.length_eq_one_iff.mp hlen
    unfold Heeds
    rw [bindVariable_single_apply]
    simp only [LexicalScope.use, ← hs.find?_eq, ← hglobals name]
    cases s.scopes.find? name with
    | some slot => exact ⟨rfl, hs, rfl, .refl s.registry⟩
    | none =>
      cases s.symbols.global? name with
      | some g => exact ⟨rfl, hs, rfl, .refl s.registry⟩
      | none => exact .inr ⟨_, rfl, rfl⟩
  · refine .intro (fun {binding s'} hok => ?_) fun {d s'} herror => .inl ?_
    · have hdistant : Distant (bindVariable site token path) := distant_bindVariable hlen token
      have hmakes : Makes site (fun _ => True) _ (fun _ => True) (bindVariable site token path) s :=
        makes_bindVariable trivial path
      rw [LocalSite.ofPath_of_ne hlen, hdistant.scopes_eq hok]
      exact ⟨σ.use_of_ne globals token hlen, hs, (hdistant hok).1, hmakes.leadsTo hok⟩
    · obtain rfl | ⟨r, hrefused⟩ := bindVariable_dotted_eq_error hlen herror
      · rcases hm with rfl | rfl <;>
          exact FailsApart.unresolved (List.mem_singleton_self _) (.inr hlen)
      · rcases hm with rfl | rfl <;>
          exact .refused (List.mem_singleton_self _) hlen (.refl s.registry) hrefused

theorem heeds_bindCall (hs : s.scopes.Opens σ outer locals) (token : Nat) (path : List String)
    (arity : Nat) : Heeds site [.call token path arity] (.ok []) (·.Opens σ outer locals)
      (fun _ => []) (bindCall site token path arity) s := by
  refine .intro (fun {refs s'} hok => ?_) fun {d s'} herror => .inl ?_
  · have hdistant : Distant (bindCall site token path arity) := distant_bindCall token path arity
    have hmakes : Makes site (fun _ => True) _ (fun _ => True) (bindCall site token path arity) s :=
      makes_bindCall trivial path arity
    rw [hdistant.scopes_eq hok]
    exact ⟨rfl, hs, (hdistant hok).1, hmakes.leadsTo hok⟩
  · have hmem := List.mem_singleton_self (Mention.call token path arity)
    obtain rfl | ⟨hlen, r, hrefused⟩ := bindCall_eq_error herror
    · exact FailsApart.unresolved hmem (.inl rfl)
    · exact .refused hmem hlen (.refl s.registry) hrefused

theorem heeds_declareLocal (hs : s.scopes.Opens σ outer locals) (token : Nat) (name : String)
    (type : Option ValueType) (hasValue : Bool) :
    Heeds site [.declare token name hasValue] (σ.declaration token name type locals.length)
      (·.Opens (σ.declare name locals.length) outer (locals ++ [⟨name, type, false⟩]))
      (fun slot => [.declared token name type (some slot)])
      (declareLocal site token name type false) s := by
  unfold Heeds LexicalScope.declaration
  rw [declareLocal_apply]
  by_cases hname : name ∈ σ.own
  · rw [if_pos hname, hs.declare?_eq_none hname]
    exact .inr ⟨_, rfl, rfl⟩
  · obtain ⟨scopes, hdeclare, hopens⟩ := hs.exists_declare? hname type false
    rw [if_neg hname, hdeclare]
    exact ⟨rfl, hopens, rfl, .refl s.registry⟩

end Link

end FrontEnd.Compilation
