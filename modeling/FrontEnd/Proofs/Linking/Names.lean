import FrontEnd.Compilation.Linking
import FrontEnd.Proofs.Linking.Registry
import FrontEnd.Proofs.Tree.Resolution

/-!
# Known names

The functions and globals that a module may refer to: its own and those of finished
modules. A finished module is sound if it declares what its items are, and refers to
nothing but known names, by the rules of visibility.
-/

namespace FrontEnd.Names

/-- A symbol says of a function what its item says. -/
structure FunctionSymbol.Describes (s : FunctionSymbol) (f : Function) : Prop where
  name : f.name = s.ref.name
  arity : f.arity = s.ref.arity
  index : f.index = s.ref.index
  uniqueName : f.uniqueName = some s.ref.uniqueName
  isPublic : f.isPublic = s.isPublic

/-- A symbol says of a global what its item says. -/
structure GlobalSymbol.Describes (s : GlobalSymbol) (g : Global) : Prop where
  name : g.name = s.ref.name
  uniqueName : g.uniqueName = some s.ref.uniqueName
  isPublic : g.isPublic = s.isPublic

namespace Symbols

variable {s s' : Symbols} {own module : ModulePath} {name : String} {arity : Nat}

/-- The names of one module, in which no two functions agree in name and arity. -/
structure Of (own : ModulePath) (s : Symbols) : Prop where
  functions : ∀ f ∈ s.functions, f.ref.module = own
  globals : ∀ g ∈ s.globals, g.ref.module = own
  distinct : s.functions.Pairwise fun f f' =>
    ¬(f.ref.name = f'.ref.name ∧ f.ref.arity = f'.ref.arity)

/-- Every declared name is that of an item. -/
structure Describe (s : Symbols) (items : List Item) : Prop where
  functions : ∀ f ∈ s.functions, ∃ function, .function function ∈ items ∧ f.Describes function
  globals : ∀ g ∈ s.globals, ∃ global, .global global ∈ items ∧ g.Describes global

theorem of_empty (own : ModulePath) : Of own .empty :=
  ⟨List.forall_mem_nil _, List.forall_mem_nil _, .nil⟩

theorem Of.addImport (h : s.Of own) (handle target : ModulePath) :
    (s.addImport handle target).Of own :=
  ⟨h.functions, h.globals, h.distinct⟩

/-- The latest alias counts. -/
theorem target?_addImport (s : Symbols) (handle target other : ModulePath) :
    (s.addImport handle target).target? other =
      if other = handle then some target else s.target? other := by
  unfold target? Symbols.addImport
  rw [List.find?_cons]
  split
  · next h => rw [if_pos (eq_of_beq h).symm, Option.map_some]
  · next h =>
    rw [if_neg]
    rintro rfl
    simp at h

theorem mem_functionsOf {f : FunctionSymbol} :
    f ∈ s.functionsOf name arity ↔ f ∈ s.functions ∧ f.ref.name = name ∧ f.ref.arity = arity := by
  simp [functionsOf, List.mem_filter]

theorem length_functionsOf_le (h : s.Of own) (name : String) (arity : Nat) :
    (s.functionsOf name arity).length ≤ 1 := by
  have hdistinct : (s.functionsOf name arity).Pairwise _ := h.distinct.filter _
  have hall : ∀ f ∈ s.functionsOf name arity, f.ref.name = name ∧ f.ref.arity = arity :=
    fun f hf => (mem_functionsOf.mp hf).2
  rcases hl : s.functionsOf name arity with _ | ⟨f, _ | ⟨f', rest⟩⟩
  · exact Nat.zero_le 1
  · exact Nat.le_refl 1
  · rw [hl] at hdistinct hall
    have hf := hall f List.mem_cons_self
    have hf' := hall f' (.tail f List.mem_cons_self)
    have hne := (List.pairwise_cons.mp hdistinct).1 f' List.mem_cons_self
    exact absurd ⟨hf.1.trans hf'.1.symm, hf.2.trans hf'.2.symm⟩ hne

theorem mem_of_global? {g : GlobalSymbol} (h : s.global? name = some g) :
    g ∈ s.globals ∧ g.ref.name = name := by
  have hname := List.find?_some h
  exact ⟨List.mem_of_find?_eq_some h, eq_of_beq hname⟩

theorem declareFunction?_eq_some {isPublic : Bool} {ref : FunctionRef}
    (h : s.declareFunction? module name arity isPublic = some (ref, s')) :
    s.functionsOf name arity = [] ∧ ref.module = module ∧ ref.name = name ∧ ref.arity = arity ∧
      s' = { s with functions := s.functions ++ [⟨ref, isPublic⟩] } := by
  unfold declareFunction? at h
  split at h
  · next hnone =>
    cases h
    exact ⟨List.isEmpty_iff.mp hnone, rfl, rfl, rfl, rfl⟩
  · cases h

theorem declareGlobal?_eq_some {type : ValueType} {isMutable isPublic : Bool} {ref : GlobalRef}
    (h : s.declareGlobal? module name type isMutable isPublic = some (ref, s')) :
    ref.module = module ∧ ref.name = name ∧
      s' = { s with globals := s.globals ++ [⟨ref, type, isMutable, isPublic⟩] } := by
  unfold declareGlobal? at h
  split at h
  · cases h
  · cases h
    exact ⟨rfl, rfl, rfl⟩

theorem Of.declareFunction? (hs : s.Of own) {isPublic : Bool} {ref : FunctionRef}
    (h : s.declareFunction? own name arity isPublic = some (ref, s')) : s'.Of own := by
  obtain ⟨hnone, hmodule, hname, harity, rfl⟩ := declareFunction?_eq_some h
  refine ⟨?_, hs.globals, ?_⟩
  · rw [List.forall_mem_append, List.forall_mem_singleton]
    exact ⟨hs.functions, hmodule⟩
  · rw [List.pairwise_append]
    refine ⟨hs.distinct, List.pairwise_singleton _ _, fun f hf f' hf' hsame => ?_⟩
    obtain rfl := List.mem_singleton.mp hf'
    have hmem : f ∈ s.functionsOf name arity :=
      mem_functionsOf.mpr ⟨hf, hsame.1.trans hname, hsame.2.trans harity⟩
    rw [hnone] at hmem
    cases hmem

theorem Of.declareGlobal? (hs : s.Of own) {type : ValueType} {isMutable isPublic : Bool}
    {ref : GlobalRef}
    (h : s.declareGlobal? own name type isMutable isPublic = some (ref, s')) : s'.Of own := by
  obtain ⟨hmodule, -, rfl⟩ := declareGlobal?_eq_some h
  refine ⟨hs.functions, ?_, hs.distinct⟩
  rw [List.forall_mem_append, List.forall_mem_singleton]
  exact ⟨hs.globals, hmodule⟩

end Symbols

end FrontEnd.Names

namespace FrontEnd.Compilation

open Names (FunctionSymbol GlobalSymbol Symbols)

/-- The functions and globals that there are. -/
structure Known where
  function : FunctionSymbol → Prop
  global : GlobalSymbol → Prop

namespace Known

/-- A variable of a module stands for a local, or for a global that is known. -/
inductive Binds (k : Known) (own : ModulePath) (path : List String) : Option Binding → Prop
  | slot {name : String} (index : Nat) (h : path = [name]) : Binds k own path (some (.slot index))
  | global {g : GlobalSymbol} (h : k.global g) (hname : path.getLast? = some g.ref.name)
    (hvisible : g.ref.module = own ∨ g.isPublic = true)
    (hsingle : path.length = 1 → g.ref.module = own) : Binds k own path (some (.global g.ref))

/-- A call in a module has one function that is known. -/
inductive Calls (k : Known) (own : ModulePath) (path : List String) (arity : Nat) :
    List FunctionRef → Prop
  | one {f : FunctionSymbol} (h : k.function f) (hname : path.getLast? = some f.ref.name)
    (harity : f.ref.arity = arity) (hvisible : f.ref.module = own ∨ f.isPublic = true)
    (hsingle : path.length = 1 → f.ref.module = own) : Calls k own path arity [f.ref]

/-- What a module may refer to. -/
def resolution (k : Known) (own : ModulePath) : Resolution := ⟨k.Binds own, k.Calls own⟩

/-- What is known is known further on. -/
structure Implies (k k' : Known) : Prop where
  function : ∀ f, k.function f → k'.function f
  global : ∀ g, k.global g → k'.global g

theorem Implies.resolution {k k' : Known} (h : k.Implies k') (own : ModulePath) :
    (k.resolution own).Implies (k'.resolution own) where
  allowsVariable := by
    rintro path _ (⟨index, hpath⟩ | ⟨hg, hname, hvisible, hsingle⟩)
    · exact .slot index hpath
    · exact .global (h.global _ hg) hname hvisible hsingle
  allowsCall := by
    rintro path arity _ ⟨hf, hname, harity, hvisible, hsingle⟩
    exact .one (h.function _ hf) hname harity hvisible hsingle

end Known

/-- The functions and globals of finished modules. -/
def Registry.known (r : Registry) : Known where
  function f := ∃ m, r.module? f.ref.module = some m ∧ f ∈ m.symbols.functions
  global g := ∃ m, r.module? g.ref.module = some m ∧ g ∈ m.symbols.globals

theorem Registry.known_implies {r r' : Registry}
    (h : ∀ path m, r.module? path = some m → r'.module? path = some m) :
    r.known.Implies r'.known where
  function := by
    rintro f ⟨m, hm, hf⟩
    exact ⟨m, h _ m hm, hf⟩
  global := by
    rintro g ⟨m, hm, hg⟩
    exact ⟨m, h _ m hm, hg⟩

/-- The module declares its items, and in its functions every name is one that it may refer to. -/
structure Module.Sound (k : Known) (m : Module) : Prop where
  names : m.symbols.Of m.path
  described : m.symbols.Describe m.items
  bodies : ∀ f, .function f ∈ m.items → Block.Resolved (k.resolution m.path) f.body

/-- Finished files, and no others, hold modules, and all of these are sound. -/
structure Registry.Sound (r : Registry) : Prop where
  consistent : r.Consistent
  modules : ∀ path m, r.module? path = some m → m.path = path ∧ m.Sound r.known

theorem Module.Sound.mono {k k' : Known} {m : Module} (h : m.Sound k) (hk : k.Implies k') :
    m.Sound k' :=
  ⟨h.names, h.described, fun f hf => Block.Resolved.mono (hk.resolution m.path) _ (h.bodies f hf)⟩

end FrontEnd.Compilation
