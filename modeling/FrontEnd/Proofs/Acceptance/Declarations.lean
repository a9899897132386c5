import FrontEnd.Proofs.Linking.Declarations
import Mathlib.Data.List.Nodup

/-!
# What modules declare

What the names of a module can be used for is told by the signatures of its items, and by
which of them are public. The order in which they have been declared does not matter, since
no two of them have the same signature.
-/

namespace FrontEnd

/-- What a module declares by an item: a function or a global, which other modules may use if it is
public. -/
structure Declaration where
  signature : String × Option Nat
  isPublic : Bool
  deriving DecidableEq, Repr

/-- What an item declares. -/
def Item.declaration? : Item → Option Declaration
  | function f => some ⟨(f.name, some f.arity), f.isPublic⟩
  | global g => some ⟨(g.name, none), g.isPublic⟩
  | _ => none

/-- What items declare. -/
def declarationsOf (items : List Item) : List Declaration := items.filterMap Item.declaration?

/-- No two declarations have the same signature. -/
def Distinct (ds : List Declaration) : Prop := (ds.map Declaration.signature).Nodup

theorem Distinct.unique {ds : List Declaration} (h : Distinct ds) {d d' : Declaration}
    (hd : d ∈ ds) (hd' : d' ∈ ds) (hsignature : d.signature = d'.signature) : d = d' :=
  List.inj_on_of_nodup_map h hd hd' hsignature

theorem Distinct.perm {ds ds' : List Declaration} (h : Distinct ds) (hperm : ds.Perm ds') :
    Distinct ds' :=
  (hperm.map _).nodup_iff.mp h

namespace Names

/-- What a symbol says of its function. -/
def FunctionSymbol.declaration (f : FunctionSymbol) : Declaration :=
  ⟨(f.ref.name, some f.ref.arity), f.isPublic⟩

/-- What a symbol says of its global. -/
def GlobalSymbol.declaration (g : GlobalSymbol) : Declaration := ⟨(g.ref.name, none), g.isPublic⟩

namespace Symbols

/-- What has been declared. -/
def declarations (s : Symbols) : List Declaration :=
  s.functions.map FunctionSymbol.declaration ++ s.globals.map GlobalSymbol.declaration

/-- The symbols are those of distinct declarations, made in any order. -/
structure Shows (s : Symbols) (ds : List Declaration) : Prop where
  perm : s.declarations.Perm ds
  distinct : Distinct ds

variable {s s' : Symbols} {ds : List Declaration} {name : String} {arity : Nat}
  {module : ModulePath} {isPublic : Bool}

theorem map_signature_declarations (s : Symbols) :
    s.declarations.map Declaration.signature = s.signatures := by
  rw [declarations, List.map_append, List.map_map, List.map_map]
  rfl

theorem mem_declarations_function :
    ⟨(name, some arity), isPublic⟩ ∈ s.declarations ↔
      ∃ f ∈ s.functionsOf name arity, f.isPublic = isPublic := by
  rw [declarations, List.mem_append, List.mem_map, List.mem_map]
  constructor
  · rintro (⟨f, hf, heq⟩ | ⟨g, -, heq⟩)
    · cases heq
      exact ⟨f, mem_functionsOf.mpr ⟨hf, rfl, rfl⟩, rfl⟩
    · cases heq
  · rintro ⟨f, hf, rfl⟩
    obtain ⟨hmem, rfl, rfl⟩ := mem_functionsOf.mp hf
    exact .inl ⟨f, hmem, rfl⟩

theorem mem_declarations_global :
    ⟨(name, none), isPublic⟩ ∈ s.declarations ↔
      ∃ g ∈ s.globals, g.ref.name = name ∧ g.isPublic = isPublic := by
  rw [declarations, List.mem_append, List.mem_map, List.mem_map]
  constructor
  · rintro (⟨f, -, heq⟩ | ⟨g, hg, heq⟩)
    · cases heq
    · cases heq
      exact ⟨g, hg, rfl, rfl⟩
  · rintro ⟨g, hg, rfl, rfl⟩
    exact .inr ⟨g, hg, rfl⟩

namespace Shows

theorem empty : Symbols.empty.Shows [] := ⟨.nil, .nil⟩

theorem addImport (h : s.Shows ds) (handle target : ModulePath) :
    (s.addImport handle target).Shows ds :=
  ⟨h.perm, h.distinct⟩

theorem addExternal (h : s.Shows ds) (ref : GlobalRef) : (s.addExternal ref).Shows ds := by
  unfold Symbols.addExternal
  split
  · exact h
  · exact ⟨h.perm, h.distinct⟩

theorem mem_signatures_iff (h : s.Shows ds) {sig : String × Option Nat} :
    sig ∈ s.declarations.map Declaration.signature ↔ sig ∈ ds.map Declaration.signature :=
  (h.perm.map _).mem_iff

/-- A declaration with a new signature is added. -/
theorem append (h : s.Shows ds) {d : Declaration}
    (hperm : s'.declarations.Perm (s.declarations ++ [d]))
    (hnew : d.signature ∉ ds.map Declaration.signature) : s'.Shows (ds ++ [d]) := by
  refine ⟨hperm.trans (h.perm.append_right [d]), ?_⟩
  rw [Distinct, List.map_append, List.nodup_append]
  refine ⟨h.distinct, List.nodup_singleton _, fun sig hsig sig' hsig' => ?_⟩
  rintro rfl
  exact hnew (List.mem_singleton.mp hsig' ▸ hsig)

/-- A function is found just if it is declared. -/
theorem functionsOf_iff (h : s.Shows ds) (name : String) (arity : Nat) (P : Bool → Prop) :
    (∃ f ∈ s.functionsOf name arity, P f.isPublic) ↔
      ∃ isPublic, ⟨(name, some arity), isPublic⟩ ∈ ds ∧ P isPublic := by
  constructor
  · rintro ⟨f, hf, hP⟩
    exact ⟨_, h.perm.mem_iff.mp (mem_declarations_function.mpr ⟨f, hf, rfl⟩), hP⟩
  · rintro ⟨isPublic, hmem, hP⟩
    obtain ⟨f, hf, rfl⟩ := mem_declarations_function.mp (h.perm.mem_iff.mpr hmem)
    exact ⟨f, hf, hP⟩

/-- A global is found just if it is declared. -/
theorem global?_iff (h : s.Shows ds) (name : String) (P : Bool → Prop) :
    (∃ g, s.global? name = some g ∧ P g.isPublic) ↔
      ∃ isPublic, ⟨(name, none), isPublic⟩ ∈ ds ∧ P isPublic := by
  have hmem : ∀ {g}, s.global? name = some g → ⟨(name, none), g.isPublic⟩ ∈ ds := by
    intro g hg
    obtain ⟨hin, hname⟩ := mem_of_global? hg
    exact h.perm.mem_iff.mp (mem_declarations_global.mpr ⟨g, hin, hname, rfl⟩)
  constructor
  · rintro ⟨g, hg, hP⟩
    exact ⟨g.isPublic, hmem hg, hP⟩
  · rintro ⟨isPublic, hin, hP⟩
    have hsome : (s.global? name).isSome := by
      rw [← mem_signatures_global, ← map_signature_declarations]
      exact List.mem_map_of_mem (h.perm.mem_iff.mpr hin)
    -- There is only one declaration of a global of this name, so the first one found is it.
    obtain ⟨g, hg⟩ := Option.isSome_iff_exists.mp hsome
    cases h.distinct.unique hin (hmem hg) rfl
    exact ⟨g, hg, hP⟩

/-- A name may be imported just if a function or a global of that name is public. -/
theorem exportsName_iff (h : s.Shows ds) :
    s.exportsName name = true ↔ ∃ arity, ⟨(name, arity), true⟩ ∈ ds := by
  have hglobal : (s.global? name).any GlobalSymbol.isPublic = true ↔
      ⟨(name, none), true⟩ ∈ ds := by
    rw [Option.any_eq_true, h.global?_iff name (fun isPublic => isPublic = true)]
    simp
  have hfunction : s.hasFunctionNamed name true = true ↔
      ∃ arity, ⟨(name, some arity), true⟩ ∈ ds := by
    simp only [← h.perm.mem_iff, mem_declarations_function, mem_functionsOf, hasFunctionNamed,
      List.any_eq_true, Bool.and_eq_true, beq_iff_eq, Bool.not_true, Bool.or_false]
    constructor
    · rintro ⟨f, hf, rfl, hpublic⟩
      exact ⟨f.ref.arity, f, ⟨hf, rfl, rfl⟩, hpublic⟩
    · rintro ⟨arity, f, ⟨hf, rfl, -⟩, hpublic⟩
      exact ⟨f, hf, rfl, hpublic⟩
  rw [exportsName, Bool.or_eq_true, hglobal, hfunction]
  constructor
  · rintro (h | ⟨arity, h⟩)
    · exact ⟨none, h⟩
    · exact ⟨some arity, h⟩
  · rintro ⟨_ | arity, h⟩
    · exact .inl h
    · exact .inr ⟨arity, h⟩

end Shows

/-- A function is declared just if its signature is new. -/
theorem declareFunction?_isSome :
    (s.declareFunction? module name arity isPublic).isSome ↔
      (name, some arity) ∉ s.declarations.map Declaration.signature := by
  rw [map_signature_declarations, mem_signatures_function, declareFunction?]
  split
  · next h => simp [List.isEmpty_iff.mp h]
  · next h => simpa using h

theorem declarations_declareFunction? {ref : FunctionRef}
    (h : s.declareFunction? module name arity isPublic = some (ref, s')) :
    s'.declarations.Perm (s.declarations ++ [⟨(name, some arity), isPublic⟩]) := by
  obtain ⟨-, -, rfl, rfl, rfl⟩ := declareFunction?_eq_some h
  rw [declarations, declarations, List.map_append, List.append_assoc, List.append_assoc]
  exact List.perm_append_comm.append_left _

/-- A global is declared just if its name is new among globals. -/
theorem declareGlobal?_isSome {type : ValueType} {isMutable : Bool} :
    (s.declareGlobal? module name type isMutable isPublic).isSome ↔
      (name, none) ∉ s.declarations.map Declaration.signature := by
  rw [map_signature_declarations, mem_signatures_global, declareGlobal?]
  cases s.global? name <;> simp

theorem declarations_declareGlobal? {type : ValueType} {isMutable : Bool} {ref : GlobalRef}
    (h : s.declareGlobal? module name type isMutable isPublic = some (ref, s')) :
    s'.declarations.Perm (s.declarations ++ [⟨(name, none), isPublic⟩]) := by
  obtain ⟨-, rfl, rfl⟩ := declareGlobal?_eq_some h
  rw [declarations, declarations, List.map_append, List.append_assoc]
  exact .refl _

end Symbols

end Names

end FrontEnd
