import FrontEnd.Proofs.Runs.Derivation
import FrontEnd.Proofs.Scoping.Agreement

/-!
# What holds all through linking

Linking a body is binding one name after the other, and opening and closing scopes on the
way. So what each name that is bound keeps is kept by the whole body, and where linking
fails a name could not be bound or a local was declared twice. What is kept may depend on
the globals that have been bound so far, which can be read off the linked tree.
-/

namespace FrontEnd

/-- The global that a name is bound to, if it is bound to one. -/
def Binding.globalRefs : Binding → List GlobalRef
  | slot _ => []
  | global ref => [ref]

mutual

/-- The globals that the variables in a node are bound to. -/
def Node.globalRefs : Node → List GlobalRef
  | .var _ _ binding => binding.toList.flatMap Binding.globalRefs
  | .cond c => c.globalRefs
  | .int .. | .float .. | .bool .. | .op .. | .call .. => []

/-- The globals that the variables in an expression are bound to. -/
def Expr.globalRefs : List Node → List GlobalRef
  | [] => []
  | n :: rest => n.globalRefs ++ Expr.globalRefs rest

/-- The globals that the variables in a conditional are bound to. -/
def Conditional.globalRefs : Conditional → List GlobalRef
  | .mk _ condition onTrue onFalse _ _ =>
    Expr.globalRefs condition ++ Block.globalRefs onTrue ++ Block.globalRefs onFalse

/-- The globals that the variables and targets in a statement are bound to: those of its expression,
then that of its target, and then those of its blocks. -/
def Statement.globalRefs : Statement → List GlobalRef
  | .declare _ _ _ value _ => Expr.globalRefs value
  | .assign _ target value =>
    Expr.globalRefs value ++ target.binding.toList.flatMap Binding.globalRefs
  | .eval _ value | .ret _ value => Expr.globalRefs value
  | .cond c => c.globalRefs
  | .loop _ condition body => Expr.globalRefs condition ++ Block.globalRefs body
  | .exit .. | .next .. => []

/-- The globals that the variables and targets in a block are bound to. -/
def Block.globalRefs : List Statement → List GlobalRef
  | [] => []
  | s :: rest => s.globalRefs ++ Block.globalRefs rest

end

/-- The globals that the variables and targets in the functions among some items are bound to. -/
def globalRefsOf (items : List Item) : List GlobalRef :=
  (functionsOf items).flatMap fun f => Block.globalRefs f.body

namespace Compilation.Link

variable {α β : Type} {site : Site} {R : List GlobalRef → Linking → Prop} {F : Diagnostic → Prop}

/-- What is known of the globals that have been bound so far and of the state stays known. The result
says which globals have been bound, and `before` which of them had been bound already. A failure is
one that may be. -/
def Tracks (R : List GlobalRef → Linking → Prop) (F : Diagnostic → Prop) (before : List GlobalRef)
    (refsOf : α → List GlobalRef) (x : Link α) : Prop :=
  ∀ ⦃done s⦄, R (done ++ before) s →
    match x s with
    | .ok a s' => R (done ++ refsOf a) s'
    | .error d _ => F d

/-- What binding a name keeps, and how it may fail. -/
structure Tracker (site : Site) (R : List GlobalRef → Linking → Prop) (F : Diagnostic → Prop) :
    Prop where
  scopes : ∀ {done s}, R done s → ∀ scopes, R done { s with scopes }
  bindsVariable : ∀ token path, Tracks R F [] Binding.globalRefs (bindVariable site token path)
  bindsCall : ∀ token path arity, Tracks R F [] (fun _ => []) (bindCall site token path arity)
  redeclared : ∀ token name, F (site.buffer.locate ⟨token, .variableAlreadyDeclared name⟩)

namespace Tracks

variable {before : List GlobalRef} {refsOf : α → List GlobalRef} {refsOf' : β → List GlobalRef}

theorem of_ok {x : Link α} (h : Tracks R F [] refsOf x) (done : List GlobalRef) {s s' : Linking}
    {a : α} (hs : R done s) (hx : x s = .ok a s') : R (done ++ refsOf a) s' := by
  rw [← List.append_nil done] at hs
  have hstep := h hs
  rwa [hx] at hstep

theorem of_error {x : Link α} (h : Tracks R F [] refsOf x) (done : List GlobalRef) {s s' : Linking}
    {d : Diagnostic} (hs : R done s) (hx : x s = .error d s') : F d := by
  rw [← List.append_nil done] at hs
  have hstep := h hs
  rwa [hx] at hstep

/-- What a computation keeps can be shown for a success and a failure by itself. -/
theorem intro {x : Link α}
    (hok : ∀ {done s a s'}, R done s → x s = .ok a s' → R (done ++ refsOf a) s')
    (herror : ∀ {done s d s'}, R done s → x s = .error d s' → F d) : Tracks R F [] refsOf x := by
  intro done s hs
  rw [List.append_nil] at hs
  cases hx : x s with
  | ok a s' => exact hok hs hx
  | error d s' => exact herror hs hx

theorem pure {a : α} (h : refsOf a = before) :
    Tracks R F before refsOf (Pure.pure a : Link α) := by
  intro done s hs
  change R (done ++ refsOf a) s
  rwa [h]

theorem bind {x : Link α} {f : α → Link β} (hx : Tracks R F [] refsOf x)
    (hf : ∀ a, Tracks R F (before ++ refsOf a) refsOf' (f a)) :
    Tracks R F before refsOf' (x >>= f) := by
  intro done s hs
  change match EStateM.bind x f s with
    | .ok b s' => R (done ++ refsOf' b) s'
    | .error d _ => F d
  unfold EStateM.bind
  cases hxs : x s with
  | error d t => exact hx.of_error _ hs hxs
  | ok a t =>
    have ha := hx.of_ok _ hs hxs
    rw [List.append_assoc] at ha
    exact hf a ha

theorem inScope (h : Tracker site R F) {x : Link α} (hx : Tracks R F [] refsOf x) :
    Tracks R F [] refsOf (inScope x) := by
  refine intro (fun hs hok => ?_) fun hs herror => ?_
  · obtain ⟨t, ht, rfl⟩ := inScope_eq_ok hok
    exact h.scopes (hx.of_ok _ (h.scopes hs _) ht) _
  · unfold Link.inScope at herror
    rw [modify_bind_apply] at herror
    rcases exists_of_bind_eq_error herror with hx' | ⟨a, t, -, hrest⟩
    · exact hx.of_error _ (h.scopes hs _) hx'
    · cases hrest

theorem declareLocal (h : Tracker site R F) (token : Nat) (name : String)
    (type : Option ValueType) (isParam : Bool) :
    Tracks R F [] (fun _ => []) (declareLocal site token name type isParam) := by
  refine intro (fun {done s slot s'} hs hok => ?_) fun {done s d s'} hs herror => ?_
  · rw [declareLocal_apply] at hok
    rw [List.append_nil]
    split at hok <;> cases hok
    exact h.scopes hs _
  · rw [declareLocal_apply] at herror
    split at herror <;> cases herror
    exact h.redeclared token name

end Tracks

/-! ## Bodies -/

mutual

theorem tracks_linkNode (h : Tracker site R F) : (n : Node) →
    Tracks R F [] Node.globalRefs (linkNode site n)
  | .var token path _ => by
    rw [linkNode]
    exact (h.bindsVariable token path).bind fun _ => .pure (by simp [Node.globalRefs])
  | .call token path arity _ => by
    rw [linkNode]
    exact (h.bindsCall token path arity).bind fun _ => .pure (by simp [Node.globalRefs])
  | .cond c => by
    rw [linkNode]
    exact (tracks_linkConditional h c).bind fun _ => .pure (by simp [Node.globalRefs])
  | .int .. | .float .. | .bool .. | .op .. => by
    rw [linkNode] <;> first | exact .pure (by rw [Node.globalRefs]) | nofun

theorem tracks_linkExpr (h : Tracker site R F) : (e : List Node) →
    Tracks R F [] Expr.globalRefs (linkExpr site e)
  | [] => by
    rw [linkExpr]
    exact .pure (by rw [Expr.globalRefs])
  | n :: rest => by
    rw [linkExpr]
    exact (tracks_linkNode h n).bind fun _ => (tracks_linkExpr h rest).bind fun _ =>
      .pure (by simp [Expr.globalRefs])

theorem tracks_linkConditional (h : Tracker site R F) : (c : Conditional) →
    Tracks R F [] Conditional.globalRefs (linkConditional site c)
  | .mk token condition onTrue onFalse _ _ => by
    rw [linkConditional]
    exact (tracks_linkExpr h condition).bind fun _ =>
      ((tracks_linkBlock h onTrue).inScope h).bind fun _ =>
        ((tracks_linkBlock h onFalse).inScope h).bind fun _ =>
          .pure (by simp [Conditional.globalRefs])

theorem tracks_linkStatement (h : Tracker site R F) : (st : Statement) →
    Tracks R F [] Statement.globalRefs (linkStatement site st)
  | .declare token name type value _ => by
    rw [linkStatement]
    exact (tracks_linkExpr h value).bind fun _ => (Tracks.declareLocal h token name type false).bind
      fun _ => .pure (by simp [Statement.globalRefs])
  | .assign token target value => by
    rw [linkStatement]
    exact (tracks_linkExpr h value).bind fun _ => (h.bindsVariable target.token target.path).bind
      fun _ => .pure (by simp [Statement.globalRefs])
  | .eval _ value | .ret _ value => by
    rw [linkStatement]
    exact (tracks_linkExpr h value).bind fun _ => .pure (by simp [Statement.globalRefs])
  | .cond c => by
    rw [linkStatement]
    exact (tracks_linkConditional h c).bind fun _ => .pure (by simp [Statement.globalRefs])
  | .loop token condition body => by
    rw [linkStatement]
    exact (tracks_linkExpr h condition).bind fun _ => ((tracks_linkBlock h body).inScope h).bind
      fun _ => .pure (by simp [Statement.globalRefs])
  | .exit .. | .next .. => by
    rw [linkStatement]
    exact .pure (by rw [Statement.globalRefs])

/-- What each name keeps is kept where a block is linked. -/
theorem tracks_linkBlock (h : Tracker site R F) : (b : List Statement) →
    Tracks R F [] Block.globalRefs (linkBlock site b)
  | [] => by
    rw [linkBlock]
    exact .pure (by rw [Block.globalRefs])
  | st :: rest => by
    rw [linkBlock]
    exact (tracks_linkStatement h st).bind fun _ => (tracks_linkBlock h rest).bind fun _ =>
      .pure (by simp [Block.globalRefs])

end

theorem tracks_declareParams (h : Tracker site R F) (params : List Param) :
    Tracks R F [] (fun _ => []) (declareParams site params) := by
  induction params with
  | nil => exact .pure rfl
  | cons p rest ih =>
    have hfirst : Tracks R F [] (fun _ => [])
        (discard (declareLocal site p.token p.name (some p.type) true) : Link Unit) :=
      (Tracks.declareLocal h p.token p.name (some p.type) true).bind fun _ => .pure rfl
    exact hfirst.bind fun _ => ih

theorem tracks_linkFunction (h : Tracker site R F) (f : Function) :
    Tracks R F [] (fun f' => Block.globalRefs f'.body) (linkFunction site f) := by
  have hscopes : ∀ change : Names.Scopes → Names.Scopes, Tracks R F [] (fun _ => [])
      (modify fun s => { s with scopes := change s.scopes } : Link Unit) := by
    intro change
    refine Tracks.intro (fun hs hok => ?_) fun _ herror => ?_
    · cases hok
      rw [List.append_nil]
      exact h.scopes hs _
    · cases herror
  refine (hscopes Names.Scopes.start).bind fun _ => (tracks_declareParams h f.params).bind fun _ =>
    (tracks_linkBlock h f.body).bind fun body => ?_
  intro done s hs
  exact h.scopes hs _

/-- What each name keeps is kept where the functions of a module are linked. -/
theorem tracks_linkBodies (h : Tracker site R F) (items : List Item) :
    Tracks R F [] globalRefsOf (linkBodies site items) := by
  induction items with
  | nil => exact .pure rfl
  | cons i rest ih =>
    have hcons : ∀ {i' : Item} {rest' : List Item}, globalRefsOf (i' :: rest') =
        globalRefsOf [i'] ++ globalRefsOf rest' := by
      intro i' rest'
      rw [globalRefsOf, globalRefsOf, globalRefsOf, ← List.flatMap_append, functionsOf, functionsOf,
        functionsOf, ← List.filterMap_append]
      rfl
    have hrest : ∀ i' : Item, Tracks R F (globalRefsOf [i']) globalRefsOf
        (do return i' :: (← linkBodies site rest)) := fun i' =>
      ih.bind fun _ => .pure hcons
    cases i with
    | function f =>
      have hf : Tracks R F [] (fun i' => globalRefsOf [i']) (Item.function <$> linkFunction site f) :=
        (tracks_linkFunction h f).bind fun f' => .pure (by
          simp [globalRefsOf, functionsOf, Item.function?])
      exact hf.bind hrest
    | global | imports | submodule =>
      have hother : ∀ i' : Item, globalRefsOf [i'] = [] →
          Tracks R F [] (fun i' => globalRefsOf [i']) (Pure.pure i' : Link Item) :=
        fun _ hnone => .pure hnone
      exact (hother _ rfl).bind hrest

end Compilation.Link

end FrontEnd
