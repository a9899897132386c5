import FrontEnd.Compilation.Require

/-!
# Linking asks for modules by one function only

Linking depends on how modules are compiled only through what it asks for. So two ways of
compiling modules that agree on certain files link a module in the same way there. If
one of them may fail where the other does not, then so may the module that is linked,
and otherwise it is linked in the same way.
-/

namespace FrontEnd.Compilation

open Text (Position)

/-- Two results are the same, unless the first is a failure of which `E` holds. -/
def SameUnless {σ α : Type} (E : Diagnostic → Prop) (x y : EStateM.Result Diagnostic σ α) : Prop :=
  x = y ∨ ∃ d s, x = .error d s ∧ E d

theorem SameUnless.eq {σ α : Type} {x y : EStateM.Result Diagnostic σ α}
    (h : SameUnless (fun _ => False) x y) : x = y :=
  h.resolve_right fun ⟨_, _, _, hfalse⟩ => hfalse

section Steps

variable {σ β : Type} {s : σ} {E : Diagnostic → Prop}

theorem get_bind_eq {f g : σ → EStateM Diagnostic σ β} (h : f s s = g s s) :
    (get >>= f) s = (get >>= g) s := h

theorem modify_bind_eq {change : σ → σ} {f g : Unit → EStateM Diagnostic σ β}
    (h : f () (change s) = g () (change s)) : (modify change >>= f) s = (modify change >>= g) s := h

theorem get_bind_same {f g : σ → EStateM Diagnostic σ β} (h : SameUnless E (f s s) (g s s)) :
    SameUnless E ((get >>= f) s) ((get >>= g) s) := h

theorem modify_bind_same {change : σ → σ} {f g : Unit → EStateM Diagnostic σ β}
    (h : SameUnless E (f () (change s)) (g () (change s))) :
    SameUnless E ((modify change >>= f) s) ((modify change >>= g) s) := h

end Steps

/-- Two computations do the same on states of which `I` holds, and lead to such states again. -/
def AgreeOn {σ α : Type} (I : σ → Prop) (x y : EStateM Diagnostic σ α) : Prop :=
  ∀ s, I s → x s = y s ∧ ∀ a s', x s = .ok a s' → I s'

/-- Two computations do the same on states of which `I` holds, unless the first fails in a way of
which `E` holds, and the first leads to such states again. -/
def AgreeUnless {σ α : Type} (E : Diagnostic → Prop) (I : σ → Prop)
    (x y : EStateM Diagnostic σ α) : Prop :=
  ∀ s, I s → SameUnless E (x s) (y s) ∧ ∀ a s', x s = .ok a s' → I s'

namespace AgreeUnless

variable {σ α β : Type} {E : Diagnostic → Prop} {I : σ → Prop}

theorem of_agreeOn {x y : EStateM Diagnostic σ α} (h : AgreeOn I x y) : AgreeUnless E I x y :=
  fun s hs => ⟨.inl (h s hs).1, (h s hs).2⟩

theorem pure (a : α) : AgreeUnless E I (Pure.pure a) (Pure.pure a) := by
  refine fun s hs => ⟨.inl rfl, ?_⟩
  rintro _ _ ⟨⟩
  exact hs

theorem throw (d : Diagnostic) :
    AgreeUnless E I (throw d : EStateM Diagnostic σ α) (throw d : EStateM Diagnostic σ α) :=
  fun _ _ => ⟨.inl rfl, nofun⟩

theorem modify {change : σ → σ} (h : ∀ s, I s → I (change s)) :
    AgreeUnless E I (modify change : EStateM Diagnostic σ Unit) (modify change) := by
  refine fun s hs => ⟨.inl rfl, ?_⟩
  rintro _ _ ⟨⟩
  exact h s hs

/-- After an agreement the rest need be the same only where `I` still holds. -/
theorem bind_same {x y : EStateM Diagnostic σ α} {f g : α → EStateM Diagnostic σ β} {s : σ}
    (h : AgreeUnless E I x y) (hs : I s)
    (hf : ∀ a s', I s' → SameUnless E (f a s') (g a s')) :
    SameUnless E ((x >>= f) s) ((y >>= g) s) := by
  obtain ⟨heq, hstays⟩ := h s hs
  change SameUnless E (EStateM.bind x f s) (EStateM.bind y g s)
  unfold EStateM.bind
  rcases heq with heq | ⟨d, s', hd, hE⟩
  · rw [← heq]
    cases hx : x s with
    | error d s₁ => exact .inl rfl
    | ok a s₁ => exact hf a s₁ (hstays a s₁ hx)
  · rw [hd]
    exact .inr ⟨d, s', rfl, hE⟩

theorem get_bind {f g : σ → EStateM Diagnostic σ β} (h : ∀ s, AgreeUnless E I (f s) (g s)) :
    AgreeUnless E I (get >>= f) (get >>= g) :=
  fun s hs => h s s hs

theorem bind {x y : EStateM Diagnostic σ α} {f g : α → EStateM Diagnostic σ β}
    (h : AgreeUnless E I x y) (hf : ∀ a, AgreeUnless E I (f a) (g a)) :
    AgreeUnless E I (x >>= f) (y >>= g) := by
  refine fun s hs => ⟨h.bind_same hs fun a s' hs' => (hf a s' hs').1, fun b s' hok => ?_⟩
  change EStateM.bind x f s = _ at hok
  unfold EStateM.bind at hok
  cases hx : x s with
  | error d s₁ =>
    rw [hx] at hok
    cases hok
  | ok a s₁ =>
    rw [hx] at hok
    exact (hf a s₁ ((h s hs).2 a s₁ hx)).2 b s' hok

end AgreeUnless

/-- Two ways of compiling what is asked for do the same where `I` holds of the files. -/
abbrev Alike (I : Registry → Prop) (require require' : ModulePath → Position → Compile Unit) :
    Prop :=
  ∀ target position, AgreeOn I (require target position) (require' target position)

/-- Two ways of compiling what is asked for do the same where `I` holds of the files, unless the
first fails in a way of which `E` holds. -/
abbrev AlikeUnless (E : Diagnostic → Prop) (I : Registry → Prop)
    (require require' : ModulePath → Position → Compile Unit) : Prop :=
  ∀ target position, AgreeUnless E I (require target position) (require' target position)

namespace Link

variable {α : Type} {E : Diagnostic → Prop} {I : Registry → Prop} {own : ModulePath}
  {buffer : Token.Buffer}
  {require require' : ModulePath → Position → Compile Unit}

/-- Two computations link in the same way where `I` holds of the files, unless the first fails in a
way of which `E` holds. -/
abbrev Agree (E : Diagnostic → Prop) (I : Registry → Prop) (x y : Link α) : Prop :=
  AgreeUnless E (fun s : Linking => I s.registry) x y

theorem agree_onRegistry {x y : Compile α} (h : AgreeUnless E I x y) :
    Agree E I (onRegistry x) (onRegistry y) := by
  intro s hs
  obtain ⟨heq, hstays⟩ := h s.registry hs
  unfold onRegistry
  refine ⟨?_, fun a s' hok => ?_⟩
  · rcases heq with heq | ⟨d, r, hd, hE⟩
    · rw [← heq]
      exact .inl rfl
    · rw [hd]
      exact .inr ⟨d, _, rfl, hE⟩
  · cases hx : x s.registry with
    | error d r =>
      simp only [hx] at hok
      cases hok
    | ok a r =>
      simp only [hx] at hok
      cases hok
      exact hstays a r hx

theorem agree_modify {change : Linking → Linking} (h : ∀ s, (change s).registry = s.registry) :
    Agree E I (modify change : Link Unit) (modify change) := by
  refine AgreeUnless.modify fun s hs => ?_
  rwa [h s]

theorem agree_inScope {x y : Link α} (h : Agree E I x y) : Agree E I (inScope x) (inScope y) :=
  AgreeUnless.bind (agree_modify fun _ => rfl) fun _ => h.bind fun _ =>
    AgreeUnless.bind (agree_modify fun _ => rfl) fun _ => .pure _

theorem agree_importModule (h : AlikeUnless E I require require') (target handle : ModulePath)
    (token : Nat) :
    Agree E I (importModule ⟨own, buffer, require⟩ target handle token)
      (importModule ⟨own, buffer, require'⟩ target handle token) :=
  (agree_onRegistry (h _ _)).bind fun _ => agree_modify fun _ => rfl

theorem agree_targetModule (h : AlikeUnless E I require require') (leading : List String)
    (token : Nat) :
    Agree E I (targetModule ⟨own, buffer, require⟩ leading token)
      (targetModule ⟨own, buffer, require'⟩ leading token) := by
  refine AgreeUnless.get_bind fun s => ?_
  cases s.symbols.target? ⟨leading⟩ with
  | some target => exact .pure target
  | none => exact (agree_importModule h _ _ token).bind fun _ => .pure _

theorem agree_symbolsOf (path : ModulePath) : Agree E I (symbolsOf ⟨own, buffer, require⟩ path)
    (symbolsOf ⟨own, buffer, require'⟩ path) := by
  refine AgreeUnless.get_bind fun s => ?_
  split <;> exact .pure _

theorem agree_bindVariable (h : AlikeUnless E I require require') (token : Nat)
    (path : List String) :
    Agree E I (bindVariable ⟨own, buffer, require⟩ token path)
      (bindVariable ⟨own, buffer, require'⟩ token path) := by
  unfold bindVariable
  cases path.getLast? with
  | none => exact .throw _
  | some name =>
    dsimp only
    split
    · refine AgreeUnless.get_bind fun s => ?_
      cases s.scopes.find? name with
      | some slot => exact .pure _
      | none =>
        cases s.symbols.global? name with
        | some g => exact .pure _
        | none => exact .throw _
    · refine (agree_targetModule h path.dropLast token).bind fun target =>
        (agree_symbolsOf target).bind fun symbols => ?_
      cases symbols.global? name with
      | none => exact .throw _
      | some g =>
        dsimp only
        split
        · exact .pure _
        · split
          · exact AgreeUnless.bind (agree_modify fun _ => rfl) fun _ => .pure _
          · exact .throw _

theorem agree_bindCall (h : AlikeUnless E I require require') (token : Nat) (path : List String)
    (arity : Nat) : Agree E I (bindCall ⟨own, buffer, require⟩ token path arity)
      (bindCall ⟨own, buffer, require'⟩ token path arity) := by
  unfold bindCall
  cases path.getLast? with
  | none => exact .throw _
  | some name =>
    have hchoose : ∀ symbols : List Names.FunctionSymbol,
        Agree E I (if symbols.isEmpty then unresolved ⟨own, buffer, require⟩ token path
          else pure (symbols.map (·.ref)))
        (if symbols.isEmpty then unresolved ⟨own, buffer, require'⟩ token path
          else pure (symbols.map (·.ref))) := by
      intro symbols
      split
      · exact .throw _
      · exact .pure _
    dsimp only
    split
    · exact AgreeUnless.get_bind fun s => (AgreeUnless.pure _).bind hchoose
    · exact (agree_targetModule h path.dropLast token).bind fun target =>
        (agree_symbolsOf target).bind fun symbols => (AgreeUnless.pure _).bind hchoose

theorem agree_declareLocal (token : Nat) (name : String) (type : Option ValueType)
    (isParam : Bool) : Agree E I (declareLocal ⟨own, buffer, require⟩ token name type isParam)
      (declareLocal ⟨own, buffer, require'⟩ token name type isParam) := by
  refine AgreeUnless.get_bind fun s => ?_
  cases s.scopes.declare? name type isParam with
  | some found => exact AgreeUnless.bind (agree_modify fun _ => rfl) fun _ => .pure _
  | none => exact .throw _

mutual

theorem agree_linkNode (h : AlikeUnless E I require require') : (n : Node) →
    Agree E I (linkNode ⟨own, buffer, require⟩ n) (linkNode ⟨own, buffer, require'⟩ n)
  | .var token path _ => by
    rw [linkNode, linkNode]
    exact (agree_bindVariable h token path).bind fun _ => .pure _
  | .call token path arity _ => by
    rw [linkNode, linkNode]
    exact (agree_bindCall h token path arity).bind fun _ => .pure _
  | .cond c => by
    rw [linkNode, linkNode]
    exact (agree_linkConditional h c).bind fun _ => .pure _
  | .int .. | .float .. | .bool .. | .op .. => .pure _

theorem agree_linkExpr (h : AlikeUnless E I require require') : (e : List Node) →
    Agree E I (linkExpr ⟨own, buffer, require⟩ e) (linkExpr ⟨own, buffer, require'⟩ e)
  | [] => .pure _
  | n :: rest => by
    rw [linkExpr, linkExpr]
    exact (agree_linkNode h n).bind fun _ => (agree_linkExpr h rest).bind fun _ => .pure _

theorem agree_linkConditional (h : AlikeUnless E I require require') : (c : Conditional) →
    Agree E I (linkConditional ⟨own, buffer, require⟩ c) (linkConditional ⟨own, buffer, require'⟩ c)
  | .mk token condition onTrue onFalse _ _ => by
    rw [linkConditional, linkConditional]
    exact (agree_linkExpr h condition).bind fun _ =>
      (agree_inScope (agree_linkBlock h onTrue)).bind fun _ =>
      (agree_inScope (agree_linkBlock h onFalse)).bind fun _ => .pure _

theorem agree_linkStatement (h : AlikeUnless E I require require') : (st : Statement) →
    Agree E I (linkStatement ⟨own, buffer, require⟩ st) (linkStatement ⟨own, buffer, require'⟩ st)
  | .declare token name type value _ => by
    rw [linkStatement, linkStatement]
    exact (agree_linkExpr h value).bind fun _ =>
      (agree_declareLocal token name type false).bind fun _ => .pure _
  | .assign token target value => by
    rw [linkStatement, linkStatement]
    exact (agree_linkExpr h value).bind fun _ =>
      (agree_bindVariable h target.token target.path).bind fun _ => .pure _
  | .eval token value | .ret token value => by
    rw [linkStatement, linkStatement]
    exact (agree_linkExpr h value).bind fun _ => .pure _
  | .cond c => by
    rw [linkStatement, linkStatement]
    exact (agree_linkConditional h c).bind fun _ => .pure _
  | .loop token condition body => by
    rw [linkStatement, linkStatement]
    exact (agree_linkExpr h condition).bind fun _ =>
      (agree_inScope (agree_linkBlock h body)).bind fun _ => .pure _
  | .exit .. | .next .. => .pure _

theorem agree_linkBlock (h : AlikeUnless E I require require') : (b : List Statement) →
    Agree E I (linkBlock ⟨own, buffer, require⟩ b) (linkBlock ⟨own, buffer, require'⟩ b)
  | [] => .pure _
  | st :: rest => by
    rw [linkBlock, linkBlock]
    exact (agree_linkStatement h st).bind fun _ => (agree_linkBlock h rest).bind fun _ => .pure _

end

theorem agree_declareParams (params : List Param) :
    Agree E I (declareParams ⟨own, buffer, require⟩ params)
      (declareParams ⟨own, buffer, require'⟩ params) := by
  induction params with
  | nil => exact .pure _
  | cons p rest ih =>
    exact AgreeUnless.bind ((agree_declareLocal p.token p.name (some p.type) true).bind
      fun _ => .pure _) fun _ => ih

theorem agree_linkFunction (h : AlikeUnless E I require require') (f : Function) :
    Agree E I (linkFunction ⟨own, buffer, require⟩ f) (linkFunction ⟨own, buffer, require'⟩ f) :=
  AgreeUnless.bind (agree_modify fun _ => rfl) fun _ => (agree_declareParams f.params).bind fun _ =>
    (agree_linkBlock h f.body).bind fun _ => AgreeUnless.get_bind fun _ =>
      AgreeUnless.bind (agree_modify fun _ => rfl) fun _ => .pure _

theorem agree_checkSelected (target : ModulePath) (selected : List (Nat × String)) :
    Agree E I (checkSelected ⟨own, buffer, require⟩ target selected)
      (checkSelected ⟨own, buffer, require'⟩ target selected) := by
  induction selected with
  | nil => exact .pure _
  | cons entry rest ih =>
    refine AgreeUnless.get_bind fun s => ?_
    cases s.registry.module? target with
    | none => exact AgreeUnless.bind (.throw _) fun _ => ih
    | some m =>
      dsimp only
      split
      · exact AgreeUnless.bind (.throw _) fun _ => ih
      · exact ih

theorem agree_declareItem (h : AlikeUnless E I require require') (i : Item) :
    Agree E I (declareItem ⟨own, buffer, require⟩ i) (declareItem ⟨own, buffer, require'⟩ i) := by
  cases i with
  | imports i =>
    exact (agree_importModule h i.target i.target i.token).bind fun _ =>
      (agree_checkSelected i.target i.selected).bind fun _ => .pure _
  | submodule m => exact (agree_importModule h _ _ m.token).bind fun _ => .pure _
  | global g =>
    refine AgreeUnless.get_bind fun s => ?_
    dsimp only
    cases s.symbols.declareGlobal? own g.name g.type g.isMutable g.isPublic with
    | none => exact .throw _
    | some declared => exact AgreeUnless.bind (agree_modify fun _ => rfl) fun _ => .pure _
  | function f =>
    refine AgreeUnless.get_bind fun s => ?_
    dsimp only
    cases s.symbols.declareFunction? own f.name f.arity f.isPublic with
    | none => exact .throw _
    | some declared => exact AgreeUnless.bind (agree_modify fun _ => rfl) fun _ => .pure _

theorem agree_declareItems (h : AlikeUnless E I require require') (items : List Item) :
    Agree E I (declareItems ⟨own, buffer, require⟩ items)
      (declareItems ⟨own, buffer, require'⟩ items) := by
  induction items with
  | nil => exact .pure _
  | cons i rest ih =>
    exact (agree_declareItem h i).bind fun _ => ih.bind fun _ => .pure _

theorem agree_linkBodies (h : AlikeUnless E I require require') (items : List Item) :
    Agree E I (linkBodies ⟨own, buffer, require⟩ items)
      (linkBodies ⟨own, buffer, require'⟩ items) := by
  induction items with
  | nil => exact .pure _
  | cons i rest ih =>
    have hrest : ∀ i', Agree E I (do return i' :: (← linkBodies ⟨own, buffer, require⟩ rest))
        (do return i' :: (← linkBodies ⟨own, buffer, require'⟩ rest)) :=
      fun _ => ih.bind fun _ => .pure _
    cases i with
    | function f =>
      exact AgreeUnless.bind ((agree_linkFunction h f).bind fun _ => .pure _) hrest
    | global | imports | submodule => exact hrest _

theorem agree_linkItems (h : AlikeUnless E I require require') (items : List Item) :
    Agree E I (linkItems ⟨own, buffer, require⟩ items) (linkItems ⟨own, buffer, require'⟩ items) :=
  AgreeUnless.bind (agree_modify fun _ => rfl) fun _ =>
    (agree_declareItems h items).bind (agree_linkBodies h)

end Link

variable {E : Diagnostic → Prop} {I : Registry → Prop} {path : ModulePath} {r : Registry}
  {require require' : ModulePath → Position → Compile Unit}

theorem agree_linkModule (h : AlikeUnless E I require require') (own : ModulePath)
    (buffer : Token.Buffer) (items : List Item) :
    AgreeUnless E I (linkModule ⟨own, buffer, require⟩ items)
      (linkModule ⟨own, buffer, require'⟩ items) := by
  intro r hr
  have hlinks : Link.Agree E I (Link.linkItems ⟨own, buffer, require⟩ items)
      (Link.linkItems ⟨own, buffer, require'⟩ items) := Link.agree_linkItems h items
  obtain ⟨heq, hstays⟩ := hlinks ⟨r, .empty, .closed⟩ hr
  unfold linkModule
  refine ⟨?_, fun m r' hok => ?_⟩
  · rcases heq with heq | ⟨d, s, hd, hE⟩
    · rw [← heq]
      exact .inl rfl
    · rw [hd]
      exact .inr ⟨d, _, rfl, hE⟩
  · cases hlink : Link.linkItems ⟨own, buffer, require⟩ items ⟨r, .empty, .closed⟩ with
    | error d s =>
      simp only [hlink] at hok
      cases hok
    | ok a s =>
      simp only [hlink] at hok
      cases hok
      exact hstays a s hlink

theorem agree_orFail {α : Type} (x : Except Diagnostic α) :
    AgreeUnless E I (orFail x) (orFail x) := by
  cases x with
  | ok a => exact .pure a
  | error d => exact .throw d

theorem agree_orFault {α : Type} (buffer : Token.Buffer) (x : Except Fault α) :
    AgreeUnless E I (orFault buffer x) (orFault buffer x) := by
  cases x with
  | ok a => exact .pure a
  | error fault => exact .throw _

/-- A module is compiled in the same way where the modules are that it asks for while it is in
progress, unless one of these fails. -/
theorem compileModule_same (h : AlikeUnless E I require require')
    (hr : I (r.start path)) :
    SameUnless E (compileModule require path r) (compileModule require' path r) := by
  unfold compileModule
  refine get_bind_same ?_
  cases r.search? path with
  | none => exact .inl rfl
  | some file =>
    refine modify_bind_same ?_
    refine AgreeUnless.bind_same (agree_orFail _) hr fun buffer r₁ hr₁ => ?_
    refine AgreeUnless.bind_same (agree_orFault buffer _) hr₁ fun items r₂ hr₂ => ?_
    refine AgreeUnless.bind_same (agree_orFault buffer _) hr₂ fun items' r₃ hr₃ => ?_
    refine AgreeUnless.bind_same (agree_linkModule h path buffer items') hr₃ fun _ _ _ => ?_
    exact .inl rfl

/-- A module is compiled in the same way where the modules are that it asks for while it is in
progress. -/
theorem compileModule_congr (h : Alike I require require')
    (hr : I (r.start path)) :
    compileModule require path r = compileModule require' path r :=
  (compileModule_same (fun target position => .of_agreeOn (h target position)) hr).eq

end FrontEnd.Compilation
