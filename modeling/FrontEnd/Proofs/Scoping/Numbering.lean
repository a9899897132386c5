import FrontEnd.Proofs.Scoping.Referents

/-!
# Numbering locals keeps what is found

To give each local a slot says the same about the names of a function as to leave it where
it is declared. The first fault is the same one, and if there is none, each site is bound
to the slot of what has been found there. So two functions that number their locals
differently can be compared by what is found in them.
-/

namespace FrontEnd

variable {globals : String → Option GlobalRef} {σ : LexicalScope} {τ : NameScope}
  {known declared declared' declared'' : List Referent}
  {result result' result'' : Except Fault (List LocalSite)} {fs fs' fs'' : List Finding}

/-- The slots that names stand for are those of what they stand for. Slots count the locals that are
known, whether they can be seen or not. -/
structure NameScope.Numbered (globals : String → Option GlobalRef) (σ : LexicalScope)
    (known : List Referent) (τ : NameScope) : Prop where
  own_eq : τ.own = σ.own
  lt : ∀ name k, σ.slot? name = some k → k < known.length
  referent?_eq : ∀ name, τ.referent? name =
    match σ.slot? name with
    | some k => known[k]?
    | none => (globals name).map .global

namespace NameScope.Numbered

theorem start (globals : String → Option GlobalRef) :
    NameScope.Numbered globals .empty [] (.start globals) :=
  ⟨rfl, nofun, fun _ => rfl⟩

theorem nested (h : τ.Numbered globals σ known) :
    NameScope.Numbered globals σ.nested known ⟨τ.referent?, []⟩ :=
  ⟨rfl, h.lt, h.referent?_eq⟩

/-- Locals that have gone out of sight keep their slots. -/
theorem mono (h : τ.Numbered globals σ known) (more : List Referent) :
    τ.Numbered globals σ (known ++ more) := by
  refine ⟨h.own_eq, fun name k hk => ?_, fun name => ?_⟩
  · rw [List.length_append]
    exact Nat.lt_add_right _ (h.lt name k hk)
  · rw [h.referent?_eq name]
    cases hslot : σ.slot? name with
    | none => rfl
    | some k => exact (List.getElem?_append_left (h.lt name k hslot)).symm

theorem declare (h : τ.Numbered globals σ known) (name : String) (referent : Referent) :
    (τ.declare name referent).Numbered globals (σ.declare name known.length)
      (known ++ [referent]) := by
  refine ⟨congrArg (name :: ·) h.own_eq, fun other k hk => ?_, fun other => ?_⟩
  · rw [LexicalScope.declare] at hk
    dsimp only at hk
    split at hk
    · cases hk
      simp
    · exact (h.mono [referent]).lt other k hk
  · rw [LexicalScope.declare, NameScope.declare]
    dsimp only
    by_cases heq : other = name
    · simp [heq]
    · rw [Function.update_of_ne heq, if_neg heq]
      exact (h.mono [referent]).referent?_eq other

theorem after (h : τ.Numbered globals σ known) (s : Statement) :
    (τ.after s).Numbered globals (σ.after known.length s) (known ++ referentsOf s.localSites) := by
  cases s with
  | declare token name type value slot =>
    rw [Statement.localSites, referentsOf_append, LexicalScope.after, ← length_referentsOf,
      ← List.length_append, ← List.append_assoc]
    exact (h.mono _).declare name (.declaration token)
  | _ => exact h.mono _

end NameScope.Numbered

/-- What is found is what the rules for slots say, where some locals are known and some are declared on
the way. The first fault is that of the rules, or there is none and the slots lead back to what is
found. -/
def Finds (known declared : List Referent) (result : Except Fault (List LocalSite))
    (fs : List Finding) : Prop :=
  match result with
  | .error fault => Finding.firstFault? fs = some fault
  | .ok sites => Finding.firstFault? fs = none ∧
      sites.filterMap LocalSite.numbered? = declared.zipIdx known.length ∧
      ∀ more, fs = sites.map (LocalSite.finding (Binding.listed? (known ++ declared ++ more)))

namespace Finds

theorem nil (known : List Referent) : Finds known [] (.ok []) [] := ⟨rfl, rfl, fun _ => rfl⟩

theorem append (h : Finds known declared result fs)
    (h' : Finds (known ++ declared) declared' result' fs') :
    Finds known (declared ++ declared') (do return (← result) ++ (← result')) (fs ++ fs') := by
  cases result with
  | error fault => exact (Finding.firstFault?_append fs fs').trans (by rw [show _ = _ from h]; rfl)
  | ok sites =>
    obtain ⟨hnone, hnumbered, hsites⟩ := h
    have hfault : Finding.firstFault? (fs ++ fs') = Finding.firstFault? fs' := by
      rw [Finding.firstFault?_append, hnone, Option.none_or]
    cases result' with
    | error fault => exact hfault.trans h'
    | ok sites' =>
      obtain ⟨hnone', hnumbered', hsites'⟩ := h'
      refine ⟨hfault.trans hnone', ?_, fun more => ?_⟩
      · rw [List.filterMap_append, hnumbered, hnumbered', List.zipIdx_append, List.length_append]
      · rw [List.map_append, ← List.append_assoc, ← hsites' more, List.append_assoc _ declared',
          ← hsites]

theorem append_append (h : Finds known declared result fs)
    (h' : Finds (known ++ declared) declared' result' fs')
    (h'' : Finds (known ++ declared ++ declared') declared'' result'' fs'') :
    Finds known (declared ++ declared' ++ declared'')
      (do
        let sites ← result
        let sites' ← result'
        let sites'' ← result''
        return sites ++ sites' ++ sites'')
      (fs ++ fs' ++ fs'') := by
  rw [List.append_assoc known] at h''
  have hall := (h.append h').append h''
  cases result with
  | error => exact hall
  | ok => cases result' <;> exact hall

/-- A path without a dot stands for what can be seen. -/
theorem use (h : τ.Numbered globals σ known) (token : Nat) (path : List String) :
    Finds known [] (σ.use globals token path) (Finding.ofPath τ.referent? token path) := by
  match path with
  | [] | _ :: _ :: _ => exact .nil known
  | [name] =>
    rw [Finding.ofPath, LexicalScope.use, h.referent?_eq name]
    cases hslot : σ.slot? name with
    | some k =>
      have hk := h.lt name k hslot
      refine ⟨?_, rfl, fun more => ?_⟩
      · simp [Finding.firstFault?, List.getElem?_eq_getElem hk, Finding.fault?]
      · rw [List.append_nil, List.map_singleton, LocalSite.finding]
        dsimp only [Option.bind_some, Binding.listed?]
        rw [List.getElem?_append_left hk]
    | none =>
      cases globals name with
      | some ref => exact ⟨rfl, rfl, fun _ => rfl⟩
      | none => exact rfl

theorem declaration (h : τ.Numbered globals σ known) (token : Nat) (name : String)
    (type : Option ValueType) :
    Finds known [.declaration token] (σ.declaration token name type known.length)
      [.declared token name (name ∈ τ.own)] := by
  rw [LexicalScope.declaration, h.own_eq]
  by_cases hname : name ∈ σ.own
  · rw [if_pos hname, decide_eq_true hname]
    exact rfl
  · rw [if_neg hname, decide_eq_false hname]
    exact ⟨rfl, rfl, fun _ => rfl⟩

end Finds

/-! ## Trees -/

mutual

theorem Node.finds : (n : Node) → {σ : LexicalScope} → {known : List Referent} →
    {τ : NameScope} → τ.Numbered globals σ known →
      Finds known (referentsOf n.localSites) (n.resolve globals σ known.length)
        (n.findings τ.referent?)
  | .var token path _, σ, known, τ, h => by
    rw [Node.localSites, referentsOf_ofPath, Node.resolve, Node.findings]
    exact .use h token path
  | .cond c, σ, known, τ, h => by
    rw [Node.localSites, Node.resolve, Node.findings]
    exact c.finds h
  | .int .., σ, known, τ, h | .float .., σ, known, τ, h | .bool .., σ, known, τ, h
  | .op .., σ, known, τ, h | .call .., σ, known, τ, h => by
    rw [Node.localSites, referentsOf_nil, Node.resolve, Node.findings]
    exact .nil known

theorem Expr.finds : (e : List Node) → {σ : LexicalScope} → {known : List Referent} →
    {τ : NameScope} → τ.Numbered globals σ known →
      Finds known (referentsOf (Expr.localSites e)) (Expr.resolve globals σ known.length e)
        (Expr.findings τ.referent? e)
  | [], σ, known, τ, h => by
    rw [Expr.localSites, referentsOf_nil, Expr.resolve, Expr.findings]
    exact .nil known
  | n :: rest, σ, known, τ, h => by
    rw [Expr.localSites, referentsOf_append, Expr.resolve, Expr.findings, ← length_referentsOf,
      ← List.length_append]
    exact (n.finds h).append (Expr.finds rest (h.mono _))

theorem Conditional.finds : (c : Conditional) → {σ : LexicalScope} → {known : List Referent} →
    {τ : NameScope} → τ.Numbered globals σ known →
      Finds known (referentsOf c.localSites) (c.resolve globals σ known.length)
        (c.findings τ.referent?)
  | .mk _ condition onTrue onFalse _ _, σ, known, τ, h => by
    rw [Conditional.localSites, referentsOf_append, referentsOf_append, Conditional.resolve,
      Conditional.findings]
    dsimp only
    rw [← length_referentsOf, ← length_referentsOf, ← List.length_append, ← List.length_append]
    exact (Expr.finds condition h).append_append (Block.finds onTrue (h.mono _).nested)
      (Block.finds onFalse ((h.mono _).mono _).nested)

theorem Statement.finds : (s : Statement) → {σ : LexicalScope} → {known : List Referent} →
    {τ : NameScope} → τ.Numbered globals σ known →
      Finds known (referentsOf s.localSites) (s.resolve globals σ known.length) (s.findings τ)
  | .declare token name type value _, σ, known, τ, h => by
    rw [Statement.localSites, referentsOf_append, Statement.resolve, Statement.findings,
      ← length_referentsOf, ← List.length_append]
    exact (Expr.finds value h).append (.declaration (h.mono _) token name type)
  | .assign _ target value, σ, known, τ, h => by
    rw [Statement.localSites, referentsOf_append, referentsOf_ofPath, Statement.resolve,
      Statement.findings]
    exact (Expr.finds value h).append (.use (h.mono _) target.token target.path)
  | .eval _ value, σ, known, τ, h | .ret _ value, σ, known, τ, h => by
    rw [Statement.localSites, Statement.resolve, Statement.findings]
    exact Expr.finds value h
  | .cond c, σ, known, τ, h => by
    rw [Statement.localSites, Statement.resolve, Statement.findings]
    exact c.finds h
  | .loop _ condition body, σ, known, τ, h => by
    rw [Statement.localSites, referentsOf_append, Statement.resolve, Statement.findings]
    dsimp only
    rw [← length_referentsOf, ← List.length_append]
    exact (Expr.finds condition h).append (Block.finds body (h.mono _).nested)
  | .exit .., σ, known, τ, h | .next .., σ, known, τ, h => by
    rw [Statement.localSites, referentsOf_nil, Statement.resolve, Statement.findings]
    exact .nil known

theorem Block.finds : (b : List Statement) → {σ : LexicalScope} → {known : List Referent} →
    {τ : NameScope} → τ.Numbered globals σ known →
      Finds known (referentsOf (Block.localSites b)) (Block.resolve globals σ known.length b)
        (Block.findings τ b)
  | [], σ, known, τ, h => by
    rw [Block.localSites, referentsOf_nil, Block.resolve, Block.findings]
    exact .nil known
  | s :: rest, σ, known, τ, h => by
    rw [Block.localSites, referentsOf_append, Block.resolve, Block.findings]
    dsimp only
    rw [← length_referentsOf, ← List.length_append]
    exact (s.finds h).append (Block.finds rest (h.after s))

end

/-! ## Functions -/

/-- Parameters have the first slots, unless two of them have the same name. -/
theorem NameScope.Numbered.withParams (h : τ.Numbered globals σ known) (params : List Param) :
    match σ.withParams known.length params with
    | .error fault => Finding.firstFault? (τ.paramFindings params) = some fault
    | .ok σ' => Finding.firstFault? (τ.paramFindings params) = none ∧
        (τ.withParams params).Numbered globals σ'
          (known ++ params.map fun p => .parameter p.token) := by
  induction params generalizing σ τ known with
  | nil =>
    rw [List.map_nil, List.append_nil]
    exact ⟨rfl, h⟩
  | cons p rest ih =>
    rw [LexicalScope.withParams, NameScope.paramFindings, NameScope.withParams, h.own_eq]
    by_cases hname : p.name ∈ σ.own
    · rw [if_pos hname, decide_eq_true hname]
      exact rfl
    · have hrest := ih (h.declare p.name (.parameter p.token))
      rw [List.length_append, List.length_singleton, List.append_assoc,
        List.singleton_append] at hrest
      rw [if_neg hname, decide_eq_false hname]
      exact hrest

/-- The rules for slots find the first fault of a function, or bind each site of its body to the slot
of what is found there. -/
theorem Function.resolve_findings (globals : String → Option GlobalRef) (f : Function) :
    match f.resolve globals with
    | .error fault => Finding.firstFault? (f.findings globals) = some fault
    | .ok sites => Finding.firstFault? (f.findings globals) = none ∧
        f.bodyFindings globals =
          sites.map (LocalSite.finding (Binding.referent? f.params sites)) := by
  have hparams := (NameScope.Numbered.start globals).withParams f.params
  rw [List.length_nil, List.nil_append] at hparams
  rw [Function.resolve, Function.findings, Finding.firstFault?_append]
  cases hσ : LexicalScope.empty.withParams 0 f.params with
  | error fault =>
    rw [hσ] at hparams
    change Option.or _ _ = some fault
    rw [hparams, Option.some_or]
  | ok σ =>
    rw [hσ] at hparams
    obtain ⟨hnone, hscope⟩ := hparams
    have hbody := Block.finds f.body hscope
    rw [List.length_map] at hbody
    rw [hnone, Option.none_or]
    change match Block.resolve globals σ f.params.length f.body with
      | .error fault => _
      | .ok sites => _
    cases hresult : Block.resolve globals σ f.params.length f.body with
    | error fault =>
      rw [hresult] at hbody
      exact hbody
    | ok sites =>
      rw [hresult] at hbody
      obtain ⟨hclean, hnumbered, hsites⟩ := hbody
      rw [List.length_map] at hnumbered
      refine ⟨hclean, ?_⟩
      rw [Binding.referent?_eq_listed? hnumbered]
      exact List.append_nil (List.map _ _ ++ _) ▸ hsites []

end FrontEnd
