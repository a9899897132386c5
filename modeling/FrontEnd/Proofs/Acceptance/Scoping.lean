import FrontEnd.Proofs.ControlFlow.Relabeling

/-!
# Scoping

Which names are bound where a function is linked can be told from its body alone, and from
what a name means that is no local. It depends neither on tokens nor on the numbers of
temporaries.
-/

namespace FrontEnd

/-- What names stand for that are no locals: a path is that of a variable, or of a function with a
number of arguments. -/
abbrev Meaning := List String → Option Nat → Prop

/-- The names of the open scopes, the innermost first. -/
abbrev OpenNames := List (List String)

namespace OpenNames

/-- A path is the name of a local. -/
def Finds (scopes : OpenNames) : List String → Prop
  | [name] => ∃ scope ∈ scopes, name ∈ scope
  | _ => False

/-- The innermost scope, if one is open, does not have the name yet. -/
def Admits (name : String) : OpenNames → Prop
  | [] => False
  | scope :: _ => name ∉ scope

/-- The name is added to the innermost scope. -/
def declare (name : String) : OpenNames → OpenNames
  | [] => []
  | scope :: outer => (name :: scope) :: outer

/-- The scopes with other names. -/
def relabel (l : Relabeling) (scopes : OpenNames) : OpenNames := scopes.map (List.map l.name)

end OpenNames

/-- The scopes after a statement. -/
def Statement.opens (scopes : OpenNames) : Statement → OpenNames
  | .declare _ name _ _ _ => scopes.declare name
  | _ => scopes

mutual

/-- The names of a node stand for something. -/
def Node.Binds (M : Meaning) (scopes : OpenNames) : Node → Prop
  | .var _ path _ => scopes.Finds path ∨ M path none
  | .call _ path arity _ => M path (some arity)
  | .cond c => c.Binds M scopes
  | .int .. | .float .. | .bool .. | .op .. => True

/-- The names of an expression stand for something. -/
def Expr.Binds (M : Meaning) (scopes : OpenNames) : List Node → Prop
  | [] => True
  | n :: rest => n.Binds M scopes ∧ Expr.Binds M scopes rest

/-- The names of a conditional stand for something. -/
def Conditional.Binds (M : Meaning) (scopes : OpenNames) : Conditional → Prop
  | .mk _ condition onTrue onFalse _ _ =>
    Expr.Binds M scopes condition ∧ Block.Binds M ([] :: scopes) onTrue ∧
      Block.Binds M ([] :: scopes) onFalse

/-- The names of a statement stand for something, and a name that it declares is new in its block. -/
def Statement.Binds (M : Meaning) (scopes : OpenNames) : Statement → Prop
  | .declare _ name _ value _ => Expr.Binds M scopes value ∧ scopes.Admits name
  | .assign _ target value =>
    Expr.Binds M scopes value ∧ (scopes.Finds target.path ∨ M target.path none)
  | .eval _ value | .ret _ value => Expr.Binds M scopes value
  | .cond c => c.Binds M scopes
  | .loop _ condition body => Expr.Binds M scopes condition ∧ Block.Binds M ([] :: scopes) body
  | .exit .. | .next .. => True

/-- The names of a block stand for something where they stand, and those that it declares are new. -/
def Block.Binds (M : Meaning) (scopes : OpenNames) : List Statement → Prop
  | [] => True
  | s :: rest => s.Binds M scopes ∧ Block.Binds M (s.opens scopes) rest

end

/-- The names of a function stand for something. Its parameters share a scope with the top level of
its body. -/
structure Function.Binds (M : Meaning) (f : Function) : Prop where
  params : (f.params.map Param.name).Nodup
  body : Block.Binds M [(f.params.map Param.name).reverse] f.body

variable {M : Meaning} {l : Relabeling} {scopes : OpenNames}

/-! ## Other labels -/

/-- What is no local means the same under its other name. -/
def Meaning.Respects (M : Meaning) (l : Relabeling) : Prop :=
  ∀ path, M (l.path path) none ↔ M path none

namespace OpenNames

theorem finds_relabel (hl : Function.Injective l.name) (path : List String) :
    (scopes.relabel l).Finds (l.path path) ↔ scopes.Finds path := by
  match path with
  | [] | _ :: _ :: _ => rfl
  | [name] =>
    constructor
    · rintro ⟨_, hscope, hname⟩
      obtain ⟨scope, hmem, rfl⟩ := List.mem_map.mp hscope
      exact ⟨scope, hmem, (List.mem_map_of_injective hl).mp hname⟩
    · rintro ⟨scope, hscope, hname⟩
      exact ⟨_, List.mem_map_of_mem hscope, List.mem_map_of_mem hname⟩

theorem admits_relabel (hl : Function.Injective l.name) (name : String) :
    (scopes.relabel l).Admits (l.name name) ↔ scopes.Admits name := by
  cases scopes with
  | nil => rfl
  | cons scope outer => exact not_congr (List.mem_map_of_injective hl)

theorem declare_relabel (name : String) :
    (scopes.relabel l).declare (l.name name) = (scopes.declare name).relabel l := by
  cases scopes <;> rfl

end OpenNames

theorem Statement.opens_relabel (s : Statement) :
    (s.relabel l).opens (scopes.relabel l) = (s.opens scopes).relabel l := by
  cases s <;> rw [Statement.relabel] <;> first | exact scopes.declare_relabel _ | rfl

/-- A variable is bound under its other name just as under its own. -/
theorem finds_or_means_relabel (hl : Function.Injective l.name) (hM : M.Respects l)
    (scopes : OpenNames) (path : List String) :
    (scopes.relabel l).Finds (l.path path) ∨ M (l.path path) none ↔
      scopes.Finds path ∨ M path none :=
  or_congr (scopes.finds_relabel hl path) (hM path)

mutual

theorem Node.binds_relabel (hl : Function.Injective l.name) (hM : M.Respects l) :
    (n : Node) → (scopes : OpenNames) →
      ((n.relabel l).Binds M (scopes.relabel l) ↔ n.Binds M scopes)
  | .var _ path _, scopes => by
    rw [Node.relabel, Node.Binds, Node.Binds]
    exact finds_or_means_relabel hl hM scopes path
  | .cond c, scopes => by
    rw [Node.relabel, Node.Binds, Node.Binds]
    exact c.binds_relabel hl hM scopes
  | .call .., _ | .int .., _ | .float .., _ | .bool .., _ | .op .., _ => by
    rw [Node.relabel, Node.Binds, Node.Binds]

theorem Expr.binds_relabel (hl : Function.Injective l.name) (hM : M.Respects l) :
    (e : List Node) → (scopes : OpenNames) →
      (Expr.Binds M (scopes.relabel l) (Expr.relabel l e) ↔ Expr.Binds M scopes e)
  | [], _ => by rw [Expr.relabel, Expr.Binds, Expr.Binds]
  | n :: rest, scopes => by
    rw [Expr.relabel, Expr.Binds, Expr.Binds, n.binds_relabel hl hM scopes,
      Expr.binds_relabel hl hM rest scopes]

theorem Conditional.binds_relabel (hl : Function.Injective l.name) (hM : M.Respects l) :
    (c : Conditional) → (scopes : OpenNames) →
      ((c.relabel l).Binds M (scopes.relabel l) ↔ c.Binds M scopes)
  | .mk _ condition onTrue onFalse _ _, scopes => by
    rw [Conditional.relabel, Conditional.Binds, Conditional.Binds]
    exact and_congr (Expr.binds_relabel hl hM condition scopes)
      (and_congr (Block.binds_relabel hl hM onTrue ([] :: scopes))
        (Block.binds_relabel hl hM onFalse ([] :: scopes)))

theorem Statement.binds_relabel (hl : Function.Injective l.name) (hM : M.Respects l) :
    (s : Statement) → (scopes : OpenNames) →
      ((s.relabel l).Binds M (scopes.relabel l) ↔ s.Binds M scopes)
  | .declare _ name _ value _, scopes => by
    rw [Statement.relabel, Statement.Binds, Statement.Binds, Expr.binds_relabel hl hM value scopes,
      scopes.admits_relabel hl name]
  | .assign _ target value, scopes => by
    rw [Statement.relabel, Statement.Binds, Statement.Binds, Expr.binds_relabel hl hM value scopes]
    exact and_congr_right fun _ => finds_or_means_relabel hl hM scopes target.path
  | .eval _ value, scopes | .ret _ value, scopes => by
    rw [Statement.relabel, Statement.Binds, Statement.Binds, Expr.binds_relabel hl hM value scopes]
  | .cond c, scopes => by
    rw [Statement.relabel, Statement.Binds, Statement.Binds]
    exact c.binds_relabel hl hM scopes
  | .loop _ condition body, scopes => by
    rw [Statement.relabel, Statement.Binds, Statement.Binds]
    exact and_congr (Expr.binds_relabel hl hM condition scopes)
      (Block.binds_relabel hl hM body ([] :: scopes))
  | .exit .., _ | .next .., _ => by rw [Statement.relabel, Statement.Binds, Statement.Binds]

/-- The names of a block are bound under other labels just as under its own ones, where these stay
different. -/
theorem Block.binds_relabel (hl : Function.Injective l.name) (hM : M.Respects l) :
    (b : List Statement) → (scopes : OpenNames) →
      (Block.Binds M (scopes.relabel l) (Block.relabel l b) ↔ Block.Binds M scopes b)
  | [], _ => by rw [Block.relabel, Block.Binds, Block.Binds]
  | s :: rest, scopes => by
    rw [Block.relabel, Block.Binds, Block.Binds, s.opens_relabel, s.binds_relabel hl hM scopes,
      Block.binds_relabel hl hM rest (s.opens scopes)]

end

/-- The parameters of a function keep their names. -/
def Function.Fixes (l : Relabeling) (f : Function) : Prop :=
  ∀ p ∈ f.params, l.name p.name = p.name

theorem Function.binds_relabel (hl : Function.Injective l.name) (hM : M.Respects l) {f : Function}
    (hf : f.Fixes l) : (f.relabel l).Binds M ↔ f.Binds M := by
  have hparams : (f.relabel l).params.map Param.name = f.params.map Param.name := by
    rw [Function.relabel, List.map_map]
    rfl
  have hnames : (f.params.map Param.name).map l.name = f.params.map Param.name := by
    rw [List.map_map]
    exact List.map_congr_left hf
  have hbody := Block.binds_relabel hl hM f.body [(f.params.map Param.name).reverse]
  rw [OpenNames.relabel, List.map_singleton, List.map_reverse, hnames] at hbody
  constructor
  · rintro ⟨hnodup, hb⟩
    rw [hparams] at hnodup hb
    exact ⟨hnodup, hbody.mp hb⟩
  · rintro ⟨hnodup, hb⟩
    exact ⟨hparams ▸ hnodup, hparams ▸ hbody.mpr hb⟩

/-! ## Flat functions -/

/-- Nothing but locals can be temporaries. -/
def Meaning.OfSource (M : Meaning) : Prop :=
  ∀ path, M path none → ControlFlow.temporary? path = none

namespace ControlFlow

open Emit

/-- No variable of the function is a temporary. -/
structure SourceFunction (f : Function) : Prop where
  params : ∀ p ∈ f.params, temporary? [p.name] = none
  body : IsSource (Block.paths f.body)

/-- With `k` temporaries handed out before, the function is flattened, and the names of the result
stand for something. -/
def LinksAfter (M : Meaning) (k : Nat) (f : Function) : Prop :=
  ∃ g, ((flattenFunction f).run k).result = .ok g ∧ g.Binds M

theorem respects_renumber (hM : M.OfSource) (d : Nat) : M.Respects (renumber d) := by
  intro path
  by_cases hpath : temporary? path = none
  · rw [path_renumber hpath]
  · refine iff_of_false (fun h => hpath ?_) fun h => hpath (hM path h)
    match path with
    | [] | _ :: _ :: _ => rfl
    | [name] =>
      have hnone : temporary? [(renumber d).name name] = none := hM _ h
      have hsome := (renumber_shifts d).isTemporary name
      rw [hnone] at hsome
      exact Option.not_isSome_iff_eq_none.mp (hsome ▸ nofun)

theorem fixes_renumber {f g : Function} {k : Nat} (hf : SourceFunction f)
    (h : ((flattenFunction f).run k).result = .ok g) (d : Nat) : g.Fixes (renumber d) := by
  rcases hrun : (flattenFunction f).run k with ⟨result, pre, k'⟩
  rw [hrun] at h
  cases h
  obtain ⟨body, -, rfl, -⟩ := run_flattenFunction_eq_ok hrun
  exact fun p hp => renumber_of_temporary? (hf.params p hp)

/-- Whether a function links depends neither on its tokens nor on how many temporaries have been
handed out before. -/
theorem linksAfter_forget (hM : M.OfSource) {f : Function} (hf : SourceFunction f) (k d : Nat) :
    LinksAfter M (k + d) (f.relabel .forget) ↔ LinksAfter M k f := by
  have hinjective := renumber_injective d
  have hrespects := respects_renumber hM d
  constructor
  · rintro ⟨_, hrun, hb⟩
    obtain ⟨g, hg, rfl⟩ := (result_flattenFunction_forget hf.body k d).mp hrun
    exact ⟨g, hg, (Function.binds_relabel hinjective hrespects (fixes_renumber hf hg d)).mp hb⟩
  · rintro ⟨g, hg, hb⟩
    refine ⟨_, (result_flattenFunction_forget hf.body k d).mpr ⟨g, hg, rfl⟩, ?_⟩
    exact (Function.binds_relabel hinjective hrespects (fixes_renumber hf hg d)).mpr hb

/-- Functions that differ in nothing but tokens are accepted alike, wherever they stand. -/
theorem linksAfter_congr (hM : M.OfSource) {f f' : Function} (hf : SourceFunction f)
    (hf' : SourceFunction f') (h : f.relabel .forget = f'.relabel .forget) (k k' : Nat) :
    LinksAfter M k f ↔ LinksAfter M k' f' := by
  rw [← linksAfter_forget hM hf k k', ← linksAfter_forget hM hf' k' k, h, Nat.add_comm]

theorem result_cons {x : Emit (List Item)} {i : Item} {flat : List Item} {k : Nat} :
    ((x >>= fun rest => pure (i :: rest)).run k).result = .ok flat ↔
      ∃ flat', (x.run k).result = .ok flat' ∧ flat = i :: flat' := by
  rcases hx : x.run k with ⟨fault | flat', pre, k'⟩
  · rw [run_bind_error hx]
    constructor
    · rintro ⟨⟩
    · rintro ⟨_, ⟨⟩, -⟩
  · rw [run_bind_ok hx, run_pure]
    simp [eq_comm]

theorem result_flattenItems_function {f : Function} {rest flat : List Item} {k : Nat} :
    ((flattenItems (.function f :: rest)).run k).result = .ok flat ↔
      ∃ g flat', ((flattenFunction f).run k).result = .ok g ∧
        ((flattenItems rest).run ((flattenFunction f).run k).temps).result = .ok flat' ∧
        flat = .function g :: flat' := by
  rw [flattenItems]
  rcases hf : (flattenFunction f).run k with ⟨fault | g, pre, k'⟩
  · rw [run_bind_error hf]
    constructor
    · rintro ⟨⟩
    · rintro ⟨_, _, ⟨⟩, -⟩
  · rw [run_bind_ok hf]
    dsimp only
    rw [result_cons]
    simp

theorem result_flattenItems_other {i : Item} (hi : i.function? = none) {rest flat : List Item}
    {k : Nat} : ((flattenItems (i :: rest)).run k).result = .ok flat ↔
      ∃ flat', ((flattenItems rest).run k).result = .ok flat' ∧ flat = i :: flat' := by
  have hcons : flattenItems (i :: rest) = (do return i :: (← flattenItems rest)) := by
    cases i with
    | function => cases hi
    | global | imports | submodule => rfl
  rw [hcons, result_cons]

/-- Items are flattened to functions whose names are bound just if each function is, whatever stands
before it. -/
theorem exists_flattenItems_iff (hM : M.OfSource) {items : List Item}
    (hitems : ∀ f ∈ functionsOf items, SourceFunction f) (k : Nat) :
    (∃ flat, ((flattenItems items).run k).result = .ok flat ∧
        ∀ g ∈ functionsOf flat, g.Binds M) ↔ ∀ f ∈ functionsOf items, LinksAfter M 0 f := by
  induction items generalizing k with
  | nil => exact ⟨fun _ => List.forall_mem_nil _, fun _ => ⟨[], rfl, List.forall_mem_nil _⟩⟩
  | cons i rest ih =>
    cases i with
    | function f =>
      have hcons : ∀ g flat, functionsOf (.function g :: flat) = g :: functionsOf flat :=
        fun _ _ => rfl
      rw [hcons, List.forall_mem_cons] at hitems ⊢
      rw [← linksAfter_congr hM hitems.1 hitems.1 rfl k 0,
        ← ih hitems.2 ((flattenFunction f).run k).temps]
      constructor
      · rintro ⟨_, hflat, hbinds⟩
        obtain ⟨g, flat, hg, hrest, rfl⟩ := result_flattenItems_function.mp hflat
        rw [hcons, List.forall_mem_cons] at hbinds
        exact ⟨⟨g, hg, hbinds.1⟩, flat, hrest, hbinds.2⟩
      · rintro ⟨⟨g, hg, hb⟩, flat, hrest, hbinds⟩
        refine ⟨_, result_flattenItems_function.mpr ⟨g, flat, hg, hrest, rfl⟩, ?_⟩
        rw [hcons, List.forall_mem_cons]
        exact ⟨hb, hbinds⟩
    | global | imports | submodule =>
      rw [functionsOf, List.filterMap_cons_none rfl] at hitems ⊢
      rw [← functionsOf, ← ih hitems k]
      constructor
      · rintro ⟨_, hflat, hbinds⟩
        obtain ⟨flat, hrest, rfl⟩ := (result_flattenItems_other rfl).mp hflat
        exact ⟨flat, hrest, hbinds⟩
      · rintro ⟨flat, hrest, hbinds⟩
        exact ⟨_, (result_flattenItems_other rfl).mpr ⟨flat, hrest, rfl⟩, hbinds⟩

end ControlFlow

end FrontEnd
