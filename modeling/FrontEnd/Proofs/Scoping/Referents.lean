import FrontEnd.Proofs.Scoping.Lexical
import Mathlib.Logic.Function.Basic

/-!
# What names stand for

Lexical scoping apart from slots: a name stands for the parameter or the declaration that
can be seen, each known by its token, or for a global. What is found at each place of a
body is put down in order, faults among it. Nothing has to be counted for that, so it does
not matter how many other locals there are. Numbering the locals of a function gives each
a slot, and the slots lead back to what has been found.
-/

namespace FrontEnd

/-- What a name without a dot may stand for. -/
inductive Referent
  | parameter (token : Nat)
  | declaration (token : Nat)
  | global (ref : GlobalRef)
  deriving DecidableEq, Repr

/-- What is found at a place where a local is declared or a name without a dot is used. -/
inductive Finding
  /-- The name is taken if the block has declared it before. -/
  | declared (token : Nat) (name : String) (taken : Bool)
  | used (token : Nat) (name : String) (referent : Option Referent)
  deriving DecidableEq, Repr

namespace Finding

/-- The name that stands at the place. -/
def name : Finding → String
  | declared _ name _ | used _ name _ => name

/-- A name that is taken must not be declared, and one that is used must stand for something. -/
def fault? : Finding → Option Fault
  | declared token name true => some ⟨token, .variableAlreadyDeclared name⟩
  | used token name none => some ⟨token, .unresolvedIdentifier name⟩
  | declared _ _ false | used _ _ (some _) => none

/-- What is found where a path is used: nothing if it has a dot. -/
def ofPath (referent? : String → Option Referent) (token : Nat) (path : List String) :
    List Finding :=
  match path with
  | [name] => [used token name (referent? name)]
  | _ => []

/-- The first fault among some findings. -/
def firstFault? (fs : List Finding) : Option Fault := fs.findSome? fault?

theorem firstFault?_append (fs fs' : List Finding) :
    firstFault? (fs ++ fs') = (firstFault? fs).or (firstFault? fs') :=
  List.findSome?_append

end Finding

/-- What the names stand for at a place of a body. -/
structure NameScope where
  referent? : String → Option Referent
  /-- The names that have been declared in the block itself. -/
  own : List String

namespace NameScope

/-- Outside of every function a name stands for a global. -/
def start (globals : String → Option GlobalRef) : NameScope :=
  ⟨fun name => (globals name).map .global, []⟩

/-- A name stands for something else from here on. -/
def declare (σ : NameScope) (name : String) (referent : Referent) : NameScope :=
  ⟨Function.update σ.referent? name (some referent), name :: σ.own⟩

/-- The scope after a statement. -/
def after (σ : NameScope) : Statement → NameScope
  | .declare token name _ _ _ => σ.declare name (.declaration token)
  | _ => σ

/-- The scope after parameters. -/
def withParams (σ : NameScope) : List Param → NameScope
  | [] => σ
  | p :: rest => (σ.declare p.name (.parameter p.token)).withParams rest

/-- What is found at parameters. -/
def paramFindings (σ : NameScope) : List Param → List Finding
  | [] => []
  | p :: rest => .declared p.token p.name (p.name ∈ σ.own) ::
      (σ.declare p.name (.parameter p.token)).paramFindings rest

end NameScope

mutual

/-- What is found in a node. -/
def Node.findings (referent? : String → Option Referent) : Node → List Finding
  | .var token path _ => Finding.ofPath referent? token path
  | .cond c => c.findings referent?
  | .int .. | .float .. | .bool .. | .op .. | .call .. => []

/-- What is found in an expression. An expression declares nothing that is seen after it. -/
def Expr.findings (referent? : String → Option Referent) : List Node → List Finding
  | [] => []
  | n :: rest => n.findings referent? ++ Expr.findings referent? rest

/-- What is found in a conditional, each block of which is a scope of its own. -/
def Conditional.findings (referent? : String → Option Referent) : Conditional → List Finding
  | .mk _ condition onTrue onFalse _ _ =>
    Expr.findings referent? condition ++ Block.findings ⟨referent?, []⟩ onTrue ++
      Block.findings ⟨referent?, []⟩ onFalse

/-- What is found in a statement. The condition of a loop is outside the scope of its body. -/
def Statement.findings (σ : NameScope) : Statement → List Finding
  | .declare token name _ value _ =>
    Expr.findings σ.referent? value ++ [.declared token name (name ∈ σ.own)]
  | .assign _ target value =>
    Expr.findings σ.referent? value ++ Finding.ofPath σ.referent? target.token target.path
  | .eval _ value | .ret _ value => Expr.findings σ.referent? value
  | .cond c => c.findings σ.referent?
  | .loop _ condition body =>
    Expr.findings σ.referent? condition ++ Block.findings ⟨σ.referent?, []⟩ body
  | .exit .. | .next .. => []

/-- What is found in a block. -/
def Block.findings (σ : NameScope) : List Statement → List Finding
  | [] => []
  | s :: rest => s.findings σ ++ Block.findings (σ.after s) rest

end

@[simp]
theorem Expr.findings_nil (referent? : String → Option Referent) :
    Expr.findings referent? [] = [] := by
  rw [Expr.findings]

@[simp]
theorem Expr.findings_cons (referent? : String → Option Referent) (n : Node) (rest : Expr) :
    Expr.findings referent? (n :: rest) = n.findings referent? ++ Expr.findings referent? rest := by
  rw [Expr.findings]

@[simp]
theorem Expr.findings_append (referent? : String → Option Referent) (e e' : Expr) :
    Expr.findings referent? (e ++ e') =
      Expr.findings referent? e ++ Expr.findings referent? e' := by
  induction e with
  | nil => simp
  | cons n rest ih => simp [ih]

@[simp]
theorem Block.findings_nil (σ : NameScope) : Block.findings σ [] = [] := by
  rw [Block.findings]

@[simp]
theorem Block.findings_cons (σ : NameScope) (s : Statement) (rest : Block) :
    Block.findings σ (s :: rest) = s.findings σ ++ Block.findings (σ.after s) rest := by
  rw [Block.findings]

/-- What is found in the body of a function. -/
def Function.bodyFindings (globals : String → Option GlobalRef) (f : Function) : List Finding :=
  Block.findings ((NameScope.start globals).withParams f.params) f.body

/-- What is found in a function, at its parameters first. -/
def Function.findings (globals : String → Option GlobalRef) (f : Function) : List Finding :=
  (NameScope.start globals).paramFindings f.params ++ f.bodyFindings globals

/-! ## Slots -/

namespace LocalSite

/-- The local that is declared at a site. -/
def referent? : LocalSite → Option Referent
  | declared token _ _ _ => some (.declaration token)
  | used .. => none

/-- The local that is declared at a site, with its slot. -/
def numbered? : LocalSite → Option (Referent × Nat)
  | declared token _ _ (some slot) => some (.declaration token, slot)
  | declared _ _ _ none | used .. => none

/-- The local that is declared at a site if it has the slot. -/
def holder? (slot : Nat) : LocalSite → Option Referent
  | declared token _ _ own => if own = some slot then some (.declaration token) else none
  | used .. => none

/-- What is found at a site whose binding leads to something. -/
def finding (lookup : Binding → Option Referent) : LocalSite → Finding
  | declared token name _ _ => .declared token name false
  | used token name binding => .used token name (binding.bind lookup)

end LocalSite

/-- The locals that are declared at some sites, in order. -/
def referentsOf (sites : List LocalSite) : List Referent := sites.filterMap LocalSite.referent?

@[simp]
theorem referentsOf_nil : referentsOf [] = [] := rfl

@[simp]
theorem referentsOf_append (sites sites' : List LocalSite) :
    referentsOf (sites ++ sites') = referentsOf sites ++ referentsOf sites' :=
  List.filterMap_append

@[simp]
theorem referentsOf_ofPath (token : Nat) (path : List String) (binding : Option Binding) :
    referentsOf (LocalSite.ofPath token path binding) = [] := by
  match path with
  | [] | [_] | _ :: _ :: _ => rfl

theorem length_referentsOf (sites : List LocalSite) :
    (referentsOf sites).length = (variablesOf sites).length := by
  induction sites with
  | nil => rfl
  | cons site rest ih =>
    cases site with
    | declared => exact congrArg (· + 1) ih
    | used => exact ih

/-- What a binding leads to in a function: the parameter or the declaration that has the slot, or the
global. -/
def Binding.referent? (params : List Param) (sites : List LocalSite) : Binding → Option Referent
  | slot k =>
    match params[k]? with
    | some p => some (.parameter p.token)
    | none => sites.findSome? (LocalSite.holder? k)
  | global ref => some (.global ref)

/-- What a binding leads to where the locals are listed by their slots. -/
def Binding.listed? (locals : List Referent) : Binding → Option Referent
  | slot k => locals[k]?
  | global ref => some (.global ref)

/-- A site that has been given no number has no slot. -/
theorem LocalSite.holder?_of_numbered?_eq_none {site : LocalSite} (h : site.numbered? = none)
    (k : Nat) : site.holder? k = none := by
  match site with
  | .declared _ _ _ none | .used .. => rfl
  | .declared _ _ _ (some _) => cases h

theorem LocalSite.holder?_of_numbered?_eq_some {site : LocalSite} {referent : Referent} {slot : Nat}
    (h : site.numbered? = some (referent, slot)) (k : Nat) :
    site.holder? k = if slot = k then some referent else none := by
  match site with
  | .declared _ _ _ none | .used .. => cases h
  | .declared _ _ _ (some _) =>
    cases h
    rw [holder?]
    simp only [Option.some.injEq]

theorem findSome?_holder? {sites : List LocalSite} {declared : List Referent} {first : Nat}
    (h : sites.filterMap LocalSite.numbered? = declared.zipIdx first) {k : Nat} (hk : first ≤ k) :
    sites.findSome? (LocalSite.holder? k) = declared[k - first]? := by
  induction sites generalizing declared first with
  | nil =>
    cases declared with
    | nil => rfl
    | cons => cases h
  | cons site rest ih =>
    rw [List.findSome?_cons]
    cases hsite : site.numbered? with
    | none =>
      rw [List.filterMap_cons_none hsite] at h
      rw [LocalSite.holder?_of_numbered?_eq_none hsite]
      exact ih h hk
    | some numbered =>
      obtain ⟨referent, slot⟩ := numbered
      rw [List.filterMap_cons_some hsite] at h
      rw [LocalSite.holder?_of_numbered?_eq_some hsite]
      cases declared with
      | nil => cases h
      | cons first' later =>
        rw [List.zipIdx_cons] at h
        obtain ⟨hfirst, hrest⟩ := List.cons.inj h
        cases hfirst
        by_cases heq : first = k
        · rw [if_pos heq, heq, Nat.sub_self]
          rfl
        · rw [if_neg heq, show k - first = k - (first + 1) + 1 by omega, List.getElem?_cons_succ]
          exact ih hrest (by omega)

/-- Where the locals declared in a body have been numbered from the parameters on, it is the same to
look for the declaration that has a slot and to look it up. -/
theorem Binding.referent?_eq_listed? {params : List Param} {sites : List LocalSite}
    {declared : List Referent}
    (h : sites.filterMap LocalSite.numbered? = declared.zipIdx params.length) :
    Binding.referent? params sites =
      Binding.listed? (params.map (fun p => .parameter p.token) ++ declared) := by
  funext b
  cases b with
  | global => rfl
  | slot k =>
    rw [referent?, listed?]
    by_cases hk : k < params.length
    · rw [List.getElem?_eq_getElem hk, List.getElem?_append_left (by rwa [List.length_map]),
        List.getElem?_map, List.getElem?_eq_getElem hk, Option.map_some]
    · have hle := Nat.le_of_not_lt hk
      rw [List.getElem?_eq_none hle, List.getElem?_append_right (by rwa [List.length_map]),
        List.length_map]
      exact findSome?_holder? h hle

end FrontEnd
