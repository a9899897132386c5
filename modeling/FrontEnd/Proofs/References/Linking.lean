import FrontEnd.Proofs.Linking.Soundness
import FrontEnd.Proofs.References.Basic
import FrontEnd.Proofs.Tree.WellFormed

/-!
# Linking asks for the references

To link a module is to make its requests one after the other, as far as they are not
met by an alias. If all of them are granted the module has an alias for each, and what is
linked is as well formed as what was there before. Whatever else linking finds fault with
stands at a token of the module, and blames no other one.
-/

namespace FrontEnd

/-- The alias that a request leads to, with the module that it stands for. -/
def Request.entry (q : Request) : ModulePath × ModulePath := (q.handle, q.target)

/-- A cause that a module need not ask for another one to have. -/
def Cause.IsOwn : Cause → Prop
  | .moduleNotFound _ | .circularDependency _ => False
  | _ => True

/-- Only what is found while names are resolved blames another module. -/
theorem Cause.IsOwn.of_category {cause : Cause}
    (h : cause.category ∉ [.resolution, .circularDependency]) : cause.IsOwn := by
  cases cause with
  | moduleNotFound path => exact h List.mem_cons_self
  | circularDependency path => exact h (List.mem_cons_of_mem _ List.mem_cons_self)
  | _ => exact trivial

/-- An expression is well formed, and its nodes take as many operands as those of another one. -/
def Expr.Rebuilds (T : Nat → Prop) (e e' : Expr) : Prop :=
  Expr.NodesWellFormed T e' ∧ e'.map Node.operands = e.map Node.operands

theorem Expr.Rebuilds.wellFormed {T : Nat → Prop} {e e' : Expr} (h : e.Rebuilds T e')
    (he : e.IsComplete) : e'.WellFormed T :=
  ⟨(depthAfter_congr h.2 0).trans he, h.1⟩

theorem Expr.Rebuilds.optionWellFormed {T : Nat → Prop} {e e' : Expr} (h : e.Rebuilds T e')
    (he : e ≠ [] → e.IsComplete) : e'.OptionWellFormed T := by
  refine ⟨fun hne => (h.wellFormed (he ?_)).1, h.1⟩
  rintro rfl
  exact hne (List.map_eq_nil_iff.mp h.2)

namespace Compilation

variable {site : Site} {T : Nat → Prop} {qs qs' : List Request} {r r₁ r' : Registry}
  {d : Diagnostic}

namespace Site

/-- Requests have been granted, one after the other. -/
inductive Granted (site : Site) : List Request → Registry → Registry → Prop
  | nil {r : Registry} : Granted site [] r r
  | cons {q : Request} {qs : List Request} {r r₁ r' : Registry}
    (granted : site.require q.target (site.buffer.position q.token) r = .ok () r₁)
    (rest : Granted site qs r₁ r') : Granted site (q :: qs) r r'

/-- A failure while requests were made: the module is at fault itself, at a token of it, or the last
request that was made has not been granted. -/
inductive Refused (site : Site) (T : Nat → Prop) :
    List Request → Registry → Diagnostic → Registry → Prop
  | own {qs : List Request} {r : Registry} {fault : Fault} (token : T fault.token)
    (cause : fault.cause.IsOwn) : Refused site T qs r (site.buffer.locate fault) r
  | refused {q : Request} {qs : List Request} {r r' : Registry} {d : Diagnostic}
    (failed : site.require q.target (site.buffer.position q.token) r = .error d r') :
    Refused site T (q :: qs) r d r'
  | granted {q : Request} {qs : List Request} {r r₁ r' : Registry} {d : Diagnostic}
    (granted : site.require q.target (site.buffer.position q.token) r = .ok () r₁)
    (rest : Refused site T qs r₁ d r') : Refused site T (q :: qs) r d r'

theorem Granted.append (h : site.Granted qs r r₁) (h' : site.Granted qs' r₁ r') :
    site.Granted (qs ++ qs') r r' := by
  induction h with
  | nil => exact h'
  | cons hq _ ih => exact .cons hq (ih h')

theorem Granted.refused (h : site.Granted qs r r₁) (h' : site.Refused T qs' r₁ d r') :
    site.Refused T (qs ++ qs') r d r' := by
  induction h with
  | nil => exact h'
  | cons hq _ ih => exact .granted hq (ih h')

theorem Refused.append (h : site.Refused T qs r d r') (qs' : List Request) :
    site.Refused T (qs ++ qs') r d r' := by
  induction h with
  | own ht hcause => exact .own ht hcause
  | refused hq => exact .refused hq
  | granted hq _ ih => exact .granted hq ih

end Site

/-- The aliases that the module has so far. -/
def Linking.handles (s : Linking) : List ModulePath := s.symbols.imports.map Prod.fst

namespace Link

variable {α β : Type} {s : Linking}

/-- All that a computation does to the files and the aliases is to make some requests, those that are
not met by an alias. It gives a result of which `P` holds, or fails at one of the tokens. -/
def Makes (site : Site) (T : Nat → Prop) (qs : List Request) (P : α → Prop) (x : Link α)
    (s : Linking) : Prop :=
  match x s with
  | .ok a s' => site.Granted (asked s.handles qs) s.registry s'.registry ∧
    s'.symbols.imports = ((asked s.handles qs).map Request.entry).reverse ++ s.symbols.imports ∧ P a
  | .error d s' => site.Refused T (asked s.handles qs) s.registry d s'.registry

namespace Makes

variable {P : α → Prop} {Q : β → Prop}

theorem pure {a : α} (h : P a) : Makes site T [] P (Pure.pure a : Link α) s := ⟨.nil, rfl, h⟩

theorem fail {token : Nat} {cause : Cause} (ht : T token) (h : cause.IsOwn) :
    Makes site T qs P (Link.fail site token cause : Link α) s := by
  have hfault : T (Fault.mk token cause).token := ht
  exact Site.Refused.own hfault h

theorem unresolved {token : Nat} {path : List String} (ht : T token) :
    Makes site T qs P (Link.unresolved site token path : Link α) s := fail ht trivial

theorem modify {change : Linking → Linking} (hr : (change s).registry = s.registry)
    (hi : (change s).symbols.imports = s.symbols.imports) :
    Makes site T [] (fun _ => True) (modify change : Link Unit) s := by
  refine ⟨?_, hi, trivial⟩
  change site.Granted [] s.registry (change s).registry
  rw [hr]
  exact .nil

/-- What comes after the state has been looked at depends on what it is. -/
theorem get_bind {f : Linking → Link β} (h : Makes site T qs Q (f s) s) :
    Makes site T qs Q (get >>= f) s := h

theorem bind {x : Link α} {f : α → Link β} (h : Makes site T qs P x s)
    (hf : ∀ a s', x s = .ok a s' → P a → Makes site T qs' Q (f a) s') :
    Makes site T (qs ++ qs') Q (x >>= f) s := by
  unfold Makes at h
  change match EStateM.bind x f s with
    | .ok _ s' => _
    | .error d s' => _
  unfold EStateM.bind
  cases hx : x s with
  | error d s₁ =>
    rw [hx] at h
    dsimp only
    rw [asked_append]
    exact h.append _
  | ok a s₁ =>
    rw [hx] at h
    obtain ⟨hgranted, himports, hP⟩ := h
    -- What has been granted are the aliases that decide which of the later requests are made.
    have hhandles : s₁.handles = knownAfter s.handles qs := by
      rw [Linking.handles, himports, knownAfter, Linking.handles, List.map_append, List.map_reverse,
        List.map_map]
      rfl
    have ha := hf a s₁ hx hP
    unfold Makes at ha
    rw [hhandles] at ha
    dsimp only
    cases hb : f a s₁ with
    | error d s' =>
      rw [hb] at ha
      dsimp only
      rw [asked_append]
      exact hgranted.refused ha
    | ok b s' =>
      rw [hb] at ha
      dsimp only
      rw [asked_append]
      refine ⟨hgranted.append ha.1, ?_, ha.2.2⟩
      rw [ha.2.1, himports, List.map_append, List.reverse_append, List.append_assoc]

theorem before {x : Link α} {f : α → Link β} (h : Makes site T [] P x s)
    (hf : ∀ a s', x s = .ok a s' → P a → Makes site T qs Q (f a) s') :
    Makes site T qs Q (x >>= f) s :=
  h.bind hf

theorem after {x : Link α} {f : α → Link β} (h : Makes site T qs P x s)
    (hf : ∀ a s', P a → Makes site T [] Q (f a) s') : Makes site T qs Q (x >>= f) s := by
  have hbind := h.bind fun a s' _ ha => hf a s' ha
  rwa [List.append_nil] at hbind

end Makes

theorem importModule_apply (target handle : ModulePath) (token : Nat) :
    importModule site target handle token s =
      match site.require target (site.buffer.position token) s.registry with
      | .ok _ registry => .ok () { s with registry, symbols := s.symbols.addImport handle target }
      | .error d registry => .error d { s with registry } := by
  change EStateM.bind (onRegistry _) (fun _ => modifySymbols (·.addImport handle target)) s = _
  unfold EStateM.bind onRegistry
  cases site.require target (site.buffer.position token) s.registry <;> rfl

theorem makes_importModule {q : Request} (h : ¬(q.onDemand = true ∧ q.handle ∈ s.handles)) :
    Makes site T [q] (fun _ => True) (importModule site q.target q.handle q.token) s := by
  have hasked : asked s.handles [q] = [q] := asked_cons_of_not_known h
  unfold Makes
  rw [hasked, importModule_apply]
  cases hr : site.require q.target (site.buffer.position q.token) s.registry with
  | error d registry => exact .refused hr
  | ok _ registry => exact ⟨.cons hr .nil, rfl, trivial⟩

theorem mem_handles_of_target? {handle target : ModulePath}
    (h : s.symbols.target? handle = some target) : handle ∈ s.handles := by
  obtain ⟨entry, hentry, rfl⟩ := Option.map_eq_some_iff.mp h
  have hhandle := List.find?_some hentry
  obtain rfl := eq_of_beq hhandle
  exact List.mem_map_of_mem (List.mem_of_find?_eq_some hentry)

theorem not_mem_handles_of_target? {handle : ModulePath}
    (h : s.symbols.target? handle = none) : handle ∉ s.handles := by
  intro hmem
  obtain ⟨entry, hentry, rfl⟩ := List.mem_map.mp hmem
  have hne := List.find?_eq_none.mp (Option.map_eq_none_iff.mp h) entry hentry
  exact hne BEq.rfl

/-- The leading segments of a dotted name are asked for where they are no alias. -/
theorem makes_targetModule (leading : List String) (token : Nat) :
    Makes site T [⟨token, ⟨leading⟩, ⟨leading⟩, true⟩] (fun _ => True)
      (targetModule site leading token) s := by
  refine Makes.get_bind ?_
  cases ht : s.symbols.target? ⟨leading⟩ with
  | some target =>
    have hasked : asked s.handles [⟨token, ⟨leading⟩, ⟨leading⟩, true⟩] = [] :=
      asked_cons_of_known ⟨rfl, mem_handles_of_target? ht⟩
    unfold Makes
    rw [hasked]
    exact ⟨.nil, rfl, trivial⟩
  | none =>
    exact (makes_importModule (q := ⟨token, ⟨leading⟩, ⟨leading⟩, true⟩)
      fun h => not_mem_handles_of_target? ht h.2).after fun _ _ _ => Makes.pure trivial

theorem makes_symbolsOf (path : ModulePath) :
    Makes site T [] (fun _ => True) (symbolsOf site path) s := by
  refine Makes.get_bind ?_
  split
  · exact Makes.pure trivial
  · exact Makes.pure trivial

theorem dottedName_of_isEmpty {token : Nat} {path : List String} (h : path.dropLast.isEmpty = true) :
    dottedName token path = [] := by
  rw [dottedName, if_pos]
  rw [List.isEmpty_iff_length_eq_zero, List.length_dropLast] at h
  omega

theorem dottedName_of_not_isEmpty {token : Nat} {path : List String}
    (h : ¬path.dropLast.isEmpty = true) : dottedName token path = [⟨token, path⟩] := by
  rw [dottedName, if_neg]
  rw [List.isEmpty_iff_length_eq_zero, List.length_dropLast] at h
  omega

theorem makes_bindVariable {token : Nat} (ht : T token) (path : List String) :
    Makes site T ((dottedName token path).map DottedName.request) (fun _ => True)
      (bindVariable site token path) s := by
  unfold bindVariable
  split
  · exact Makes.unresolved ht
  · next name hname =>
    split
    · next hsingle =>
      rw [dottedName_of_isEmpty hsingle]
      refine Makes.get_bind ?_
      split
      · exact Makes.pure trivial
      · exact Makes.pure trivial
      · exact Makes.unresolved ht
    · next hdotted =>
      rw [dottedName_of_not_isEmpty hdotted]
      refine (makes_targetModule path.dropLast token).after fun target s₁ _ =>
        (makes_symbolsOf target).before fun symbols s₂ _ _ => ?_
      split
      · next g hg =>
        split
        · exact Makes.pure trivial
        · split
          · refine Makes.before (Makes.modify rfl ?_) fun _ _ _ _ => Makes.pure trivial
            dsimp only
            unfold Names.Symbols.addExternal
            split <;> rfl
          · exact Makes.unresolved ht
      · exact Makes.unresolved ht

theorem makes_bindCall {token : Nat} (ht : T token) (path : List String) (arity : Nat) :
    Makes site T ((dottedName token path).map DottedName.request) (fun _ => True)
      (bindCall site token path arity) s := by
  unfold bindCall
  split
  · exact Makes.unresolved ht
  · next name hname =>
    extract_lets choose
    have hchoose : ∀ {symbols s'}, Makes site T [] (fun _ => True) (choose symbols) s' := by
      intro symbols s'
      unfold choose
      split
      · exact Makes.unresolved ht
      · exact Makes.pure trivial
    split
    · next hsingle =>
      rw [dottedName_of_isEmpty hsingle]
      exact Makes.get_bind ((Makes.pure trivial).before (P := fun _ => True) fun _ _ _ _ => hchoose)
    · next hdotted =>
      rw [dottedName_of_not_isEmpty hdotted]
      exact (makes_targetModule path.dropLast token).after fun target s₁ _ =>
        (makes_symbolsOf target).before fun symbols s₂ _ _ =>
          (Makes.pure trivial).before (P := fun _ => True) fun _ _ _ _ => hchoose

theorem makes_declareLocal {token : Nat} (ht : T token) (name : String) (type : Option ValueType)
    (isParam : Bool) :
    Makes site T [] (fun _ => True) (declareLocal site token name type isParam) s := by
  refine Makes.get_bind ?_
  split
  · exact (Makes.modify rfl rfl).before fun _ _ _ _ => Makes.pure trivial
  · exact Makes.fail ht trivial

theorem makes_inScope {P : α → Prop} {x : Link α} (hx : ∀ s, Makes site T qs P x s) :
    Makes site T qs P (inScope x) s :=
  (Makes.modify rfl rfl).before fun _ _ _ _ =>
    (hx _).after fun _ _ ha => (Makes.modify rfl rfl).before fun _ _ _ _ => Makes.pure ha

mutual

theorem makes_linkNode (site : Site) : (n : Node) → n.WellFormed T → (s : Linking) →
    Makes site T (n.dottedNames.map DottedName.request)
      (fun n' => n'.WellFormed T ∧ n'.operands = n.operands) (linkNode site n) s
  | .var token path _, ht, s => by
    rw [linkNode, Node.dottedNames]
    exact (makes_bindVariable ht path).after fun _ _ _ => Makes.pure ⟨ht, rfl⟩
  | .call token path arity _, ht, s => by
    rw [linkNode, Node.dottedNames]
    exact (makes_bindCall ht path arity).after fun _ _ _ => Makes.pure ⟨ht, rfl⟩
  | .cond c, hc, s => by
    rw [linkNode, Node.dottedNames]
    exact (makes_linkConditional site c hc s).after fun _ _ hc' => Makes.pure ⟨hc', rfl⟩
  | .int .., ht, s | .float .., ht, s | .bool .., ht, s | .op .., ht, s => by
    rw [Node.dottedNames]
    exact Makes.pure ⟨ht, rfl⟩

theorem makes_linkExpr (site : Site) : (e : List Node) → Expr.NodesWellFormed T e →
    (s : Linking) → Makes site T ((Expr.dottedNames e).map DottedName.request)
      (Expr.Rebuilds T e) (linkExpr site e) s
  | [], _, s => by
    rw [linkExpr, Expr.dottedNames_nil]
    exact Makes.pure ⟨trivial, rfl⟩
  | n :: rest, ⟨hn, hrest⟩, s => by
    rw [linkExpr, Expr.dottedNames_cons, List.map_append]
    exact (makes_linkNode site n hn s).bind fun n' s₁ _ hn' =>
      (makes_linkExpr site rest hrest s₁).after fun rest' _ hrest' => Makes.pure
        ⟨⟨hn'.1, hrest'.1⟩, congrArg₂ List.cons hn'.2 hrest'.2⟩

theorem makes_linkConditional (site : Site) : (c : Conditional) → c.WellFormed T →
    (s : Linking) → Makes site T (c.dottedNames.map DottedName.request)
      (Conditional.WellFormed T) (linkConditional site c) s
  | .mk token condition onTrue onFalse _ _, ⟨ht, ⟨hcomplete, hc⟩, htrue, hfalse⟩, s => by
    rw [linkConditional, Conditional.dottedNames, List.map_append, List.map_append,
      List.append_assoc]
    exact (makes_linkExpr site condition hc s).bind fun _ s₁ _ hc' =>
      (makes_inScope (makes_linkBlock site onTrue htrue)).bind fun _ s₂ _ htrue' =>
      (makes_inScope (makes_linkBlock site onFalse hfalse)).after fun _ _ hfalse' =>
        Makes.pure ⟨ht, hc'.wellFormed hcomplete, htrue', hfalse'⟩

theorem makes_linkStatement (site : Site) : (st : Statement) → st.WellFormed T →
    (s : Linking) → Makes site T (st.dottedNames.map DottedName.request)
      (Statement.WellFormed T) (linkStatement site st) s
  | .declare token name type value _, ⟨ht, hcomplete, hv⟩, s => by
    rw [linkStatement, Statement.dottedNames]
    exact (makes_linkExpr site value hv s).after fun _ _ hv' =>
      (makes_declareLocal ht name type false).before fun _ _ _ _ =>
        Makes.pure ⟨ht, hv'.optionWellFormed hcomplete⟩
  | .assign token target value, ⟨ht, htarget, hcomplete, hv⟩, s => by
    rw [linkStatement, Statement.dottedNames, List.map_append]
    exact (makes_linkExpr site value hv s).bind fun _ s₁ _ hv' =>
      (makes_bindVariable htarget target.path).after fun _ _ _ =>
        Makes.pure ⟨ht, htarget, hv'.wellFormed hcomplete⟩
  | .eval token value, ⟨ht, hcomplete, hv⟩, s => by
    rw [linkStatement, Statement.dottedNames]
    exact (makes_linkExpr site value hv s).after fun _ _ hv' =>
      Makes.pure ⟨ht, hv'.wellFormed hcomplete⟩
  | .ret token value, ⟨ht, hcomplete, hv⟩, s => by
    rw [linkStatement, Statement.dottedNames]
    exact (makes_linkExpr site value hv s).after fun _ _ hv' =>
      Makes.pure ⟨ht, hv'.optionWellFormed hcomplete⟩
  | .cond c, hc, s => by
    rw [linkStatement, Statement.dottedNames]
    exact (makes_linkConditional site c hc s).after fun _ _ hc' => Makes.pure hc'
  | .loop token condition body, ⟨ht, ⟨hcomplete, hc⟩, hb⟩, s => by
    rw [linkStatement, Statement.dottedNames, List.map_append]
    exact (makes_linkExpr site condition hc s).bind fun _ s₁ _ hc' =>
      (makes_inScope (makes_linkBlock site body hb)).after fun _ _ hb' =>
        Makes.pure ⟨ht, hc'.wellFormed hcomplete, hb'⟩
  | .exit .., ht, s | .next .., ht, s => by
    rw [Statement.dottedNames]
    exact Makes.pure ht

theorem makes_linkBlock (site : Site) : (b : List Statement) → Block.WellFormed T b →
    (s : Linking) → Makes site T ((Block.dottedNames b).map DottedName.request)
      (Block.WellFormed T) (linkBlock site b) s
  | [], _, s => by
    rw [linkBlock, Block.dottedNames_nil]
    exact Makes.pure trivial
  | st :: rest, ⟨hs, hrest⟩, s => by
    rw [linkBlock, Block.dottedNames_cons, List.map_append]
    exact (makes_linkStatement site st hs s).bind fun _ s₁ _ hs' =>
      (makes_linkBlock site rest hrest s₁).after fun _ _ hrest' => Makes.pure ⟨hs', hrest'⟩

end

theorem makes_declareParams {params : List Param} (h : ∀ p ∈ params, T p.token) (s : Linking) :
    Makes site T [] (fun _ => True) (declareParams site params) s := by
  induction params generalizing s with
  | nil => exact Makes.pure trivial
  | cons p rest ih =>
    rw [List.forall_mem_cons] at h
    rw [declareParams]
    exact Makes.before (P := fun _ => True)
      ((makes_declareLocal h.1 p.name (some p.type) true).before
        fun _ _ _ _ => Makes.pure trivial) fun _ _ _ _ => ih h.2 _

theorem makes_linkFunction {f : Function} (h : Item.WellFormed T (.function f)) (s : Linking) :
    Makes site T ((Block.dottedNames f.body).map DottedName.request)
      (fun f' => Item.WellFormed T (.function f')) (linkFunction site f) s :=
  (Makes.modify rfl rfl).before fun _ _ _ _ => (makes_declareParams h.2.1 _).before fun _ _ _ _ =>
    (makes_linkBlock site f.body h.2.2 _).after fun _ _ hb =>
    Makes.get_bind ((Makes.modify rfl rfl).before fun _ _ _ _ => Makes.pure ⟨h.1, h.2.1, hb⟩)

theorem makes_checkSelected (target : ModulePath) {selected : List (Nat × String)}
    (h : ∀ n ∈ selected, T n.1) (s : Linking) :
    Makes site T [] (fun _ => True) (checkSelected site target selected) s := by
  induction selected generalizing s with
  | nil => exact Makes.pure trivial
  | cons entry rest ih =>
    obtain ⟨token, name⟩ := entry
    obtain ⟨ht, hrest⟩ := List.forall_mem_cons.mp h
    rw [checkSelected]
    refine Makes.get_bind ?_
    split
    · split
      · exact (Makes.unresolved (P := fun _ => True) ht).before fun _ _ _ _ => ih hrest _
      · exact ih hrest s
    · exact (Makes.unresolved (P := fun _ => True) ht).before fun _ _ _ _ => ih hrest _

theorem makes_declareItem {i : Item} (h : i.WellFormed T) (s : Linking) :
    Makes site T (i.requests site.own) (Item.WellFormed T) (declareItem site i) s := by
  cases i with
  | imports i =>
    exact (makes_importModule (q := ⟨i.token, i.target, i.target, false⟩) nofun).after fun _ _ _ =>
      (makes_checkSelected i.target h.2 _).before fun _ _ _ _ => Makes.pure h
  | submodule m =>
    exact (makes_importModule (q := ⟨m.token, site.own.child m.name, .single m.name, false⟩)
      nofun).after fun _ _ _ => Makes.pure h
  | global g =>
    refine Makes.get_bind ?_
    split
    · exact Makes.fail h trivial
    · next ref symbols hd =>
      refine (Makes.modify rfl ?_).before fun _ _ _ _ => Makes.pure h
      rw [(Names.Symbols.declareGlobal?_eq_some hd).2.2]
  | function f =>
    refine Makes.get_bind ?_
    split
    · exact Makes.fail h.1 trivial
    · next ref symbols hd =>
      refine (Makes.modify rfl ?_).before fun _ _ _ _ => Makes.pure h
      rw [(Names.Symbols.declareFunction?_eq_some hd).2.2.2.2]

/-- To declare an item does not change what its body asks for. -/
theorem bodyRequests_of_declareItem {i i' : Item} {s' : Linking}
    (h : declareItem site i s = .ok i' s') : i'.bodyRequests = i.bodyRequests := by
  cases i with
  | imports i =>
    obtain ⟨_, s₁, -, hrest⟩ := exists_of_bind_eq_ok h
    obtain ⟨_, s₂, -, hpure⟩ := exists_of_bind_eq_ok hrest
    cases hpure
    rfl
  | submodule m =>
    obtain ⟨_, s₁, -, hpure⟩ := exists_of_bind_eq_ok h
    cases hpure
    rfl
  | global g =>
    obtain ⟨_, _, hget, hrest⟩ := exists_of_bind_eq_ok h
    cases hget
    cases hd : s.symbols.declareGlobal? site.own g.name g.type g.isMutable g.isPublic <;>
      simp only [hd] at hrest <;> cases hrest
    rfl
  | function f =>
    obtain ⟨_, _, hget, hrest⟩ := exists_of_bind_eq_ok h
    cases hget
    cases hd : s.symbols.declareFunction? site.own f.name f.arity f.isPublic <;>
      simp only [hd] at hrest <;> cases hrest
    rfl

theorem makes_declareItems {items : List Item} (h : ∀ i ∈ items, i.WellFormed T) (s : Linking) :
    Makes site T (items.flatMap (Item.requests site.own)) (fun is => ∀ i ∈ is, i.WellFormed T)
      (declareItems site items) s := by
  induction items generalizing s with
  | nil => exact Makes.pure (List.forall_mem_nil _)
  | cons i rest ih =>
    rw [List.forall_mem_cons] at h
    rw [declareItems, List.flatMap_cons]
    exact (makes_declareItem h.1 s).bind fun _ s₁ _ hi => (ih h.2 s₁).after fun _ _ hrest =>
      Makes.pure (List.forall_mem_cons.mpr ⟨hi, hrest⟩)

theorem bodyRequests_of_declareItems {items items' : List Item} {s' : Linking}
    (h : declareItems site items s = .ok items' s') :
   items'.flatMap Item.bodyRequests = items.flatMap Item.bodyRequests := by
  induction items generalizing s items' with
  | nil =>
    cases h
    rfl
  | cons i rest ih =>
    rw [declareItems] at h
    obtain ⟨i', s₁, hi, htail⟩ := exists_of_bind_eq_ok h
    obtain ⟨rest', s₂, hrest, hpure⟩ := exists_of_bind_eq_ok htail
    cases hpure
    rw [List.flatMap_cons, List.flatMap_cons, bodyRequests_of_declareItem hi, ih hrest]

theorem makes_linkBodies {items : List Item} (h : ∀ i ∈ items, i.WellFormed T) (s : Linking) :
    Makes site T (items.flatMap Item.bodyRequests) (fun is => ∀ i ∈ is, i.WellFormed T)
      (linkBodies site items) s := by
  induction items generalizing s with
  | nil => exact Makes.pure (List.forall_mem_nil _)
  | cons i rest ih =>
    rw [List.forall_mem_cons] at h
    have hrest : ∀ i' s₁, i'.WellFormed T → Makes site T (rest.flatMap Item.bodyRequests)
        (fun is => ∀ i ∈ is, i.WellFormed T) (do return i' :: (← linkBodies site rest)) s₁ :=
      fun _ s₁ hi' => (ih h.2 s₁).after fun _ _ hrest' =>
        Makes.pure (List.forall_mem_cons.mpr ⟨hi', hrest'⟩)
    cases i with
    | function f =>
      have hf : Makes site T (Item.function f).bodyRequests (Item.WellFormed T)
          (linkFunction site f >>= fun f' => pure (Item.function f')) s :=
        (makes_linkFunction h.1 s).after fun _ _ hf' => Makes.pure hf'
      exact hf.bind fun i' s₁ _ hi' => hrest i' s₁ hi'
    | global | imports | submodule => exact hrest _ s h.1

/-- What is left of linking once the module can name itself. -/
theorem makes_declare_linkBodies (site : Site) {items : List Item}
    (hitems : ∀ i ∈ items, i.WellFormed T) (s : Linking) :
    Makes site T (requests site.own items) (fun is => ∀ i ∈ is, i.WellFormed T)
      (declareItems site items >>= linkBodies site) s := by
  refine (makes_declareItems hitems s).bind fun items' s₁ h hitems' => ?_
  -- The bodies that are linked are those of the declared items, which ask for the same.
  rw [← bodyRequests_of_declareItems h]
  exact makes_linkBodies hitems' s₁

end Link

theorem Link.makes_linkItems (site : Site) {items : List Item}
    (hitems : ∀ i ∈ items, i.WellFormed T) (r : Registry) :
    match linkItems site items ⟨r, .empty, .closed⟩ with
    | .ok items' s => site.Granted (references site.own items) r s.registry ∧
      s.symbols.imports = ((references site.own items).map Request.entry).reverse ++
        [(site.own, site.own)] ∧ ∀ i ∈ items', i.WellFormed T
    | .error d s => site.Refused T (references site.own items) r d s.registry := by
  have hmakes := makes_declare_linkBodies site hitems
    ⟨r, Names.Symbols.empty.addImport site.own site.own, .closed⟩
  unfold Makes at hmakes
  cases hlink : linkItems site items ⟨r, .empty, .closed⟩ with
  | ok items' s =>
    have hrun : (declareItems site items >>= linkBodies site)
      ⟨r, Names.Symbols.empty.addImport site.own site.own, .closed⟩ = .ok items' s := hlink
    rw [hrun] at hmakes
    exact hmakes
  | error d s =>
    have hrun : (declareItems site items >>= linkBodies site)
      ⟨r, Names.Symbols.empty.addImport site.own site.own, .closed⟩ = .error d s := hlink
    rw [hrun] at hmakes
    exact hmakes

/-- Linking the items of a module makes its references in order. If they are all granted, the module
has an alias for each of them and for itself, and its items are as well formed as before. -/
theorem linkModule_granted {items : List Item} {m : Module} (hitems : ∀ i ∈ items, i.WellFormed T)
    (h : linkModule site items r = .ok m r') :
    site.Granted (references site.own items) r r' ∧ m.path = site.own ∧
      m.symbols.imports = ((references site.own items).map Request.entry).reverse ++
        [(site.own, site.own)] ∧ ∀ i ∈ m.items, i.WellFormed T := by
  obtain ⟨items', s, hlinked, rfl, rfl⟩ := linkModule_eq_ok h
  have hmakes := Link.makes_linkItems site hitems r
  rw [hlinked] at hmakes
  exact ⟨hmakes.1, rfl, hmakes.2⟩

theorem linkModule_refused {items : List Item} (hitems : ∀ i ∈ items, i.WellFormed T)
    (h : linkModule site items r = .error d r') :
    site.Refused T (references site.own items) r d r' := by
  have hmakes := Link.makes_linkItems site hitems r
  unfold linkModule at h
  cases hl : Link.linkItems site items ⟨r, .empty, .closed⟩ <;> rw [hl] at h hmakes <;> cases h
  exact hmakes

end Compilation

end FrontEnd
