import FrontEnd.Proofs.Names.Calls
import Std.Data.HashMap.Lemmas

/-!
# Names in tables by key

The names of a module may be kept in tables by key: functions by name and arity, globals by
name, and how many functions of a name there are in a table of its own. Such tables change
together or not at all, so whatever is called, they give the answers that lists of the
declarations in their order give.
-/

namespace FrontEnd

instance : Hashable ModulePath := ⟨fun path => hash path.segments⟩

namespace Names

/-- The names of a module in tables by key. -/
structure Tables where
  /-- The functions of a name and an arity. -/
  functions : Std.HashMap (String × Nat) (List FunctionSymbol)
  /-- How many functions of a name there are, of any arity. -/
  counts : Std.HashMap String Nat
  globals : Std.HashMap String GlobalSymbol
  /-- The modules that aliases stand for. -/
  imports : Std.HashMap ModulePath ModulePath
  externals : List GlobalRef

namespace Tables

open Symbols (Call)

/-- The names of a module that declares nothing. -/
def empty : Tables := ⟨∅, ∅, ∅, ∅, []⟩

/-- The functions of a name that take a number of arguments. -/
def functionsOf (t : Tables) (name : String) (arity : Nat) : List FunctionSymbol :=
  t.functions.getD (name, arity) []

/-- Whether there is a function of a name, or a public one if only those count. All entries of the
name are searched, whatever their arity. -/
def hasFunctionNamed (t : Tables) (name : String) (publicOnly : Bool) : Bool :=
  t.functions.toList.any fun (key, functions) =>
    key.1 == name && functions.any fun f => f.isPublic || !publicOnly

/-- The number of functions in all entries. -/
def functionCount (t : Tables) : Nat :=
  t.functions.fold (fun count _ functions => count + functions.length) 0

/-- Declares a function, unless there is one of the same name and arity. -/
def declareFunction? (t : Tables) (module : ModulePath) (name : String) (arity : Nat)
    (isPublic : Bool) : Option (FunctionRef × Tables) :=
  if (t.functionsOf name arity).isEmpty then
    let index := t.counts.getD name 0
    let ref : FunctionRef := ⟨module, name, arity, index⟩
    some (ref, { t with
      functions := t.functions.insert (name, arity) (t.functionsOf name arity ++ [⟨ref, isPublic⟩])
      counts := t.counts.insert name (index + 1) })
  else none

/-- The global of a name. -/
def global? (t : Tables) (name : String) : Option GlobalSymbol := t.globals[name]?

/-- Declares a global, unless there is one of the same name. -/
def declareGlobal? (t : Tables) (module : ModulePath) (name : String) (type : ValueType)
    (isMutable isPublic : Bool) : Option (GlobalRef × Tables) :=
  match t.global? name with
  | some _ => none
  | none =>
    let ref : GlobalRef := ⟨module, name⟩
    some (ref, { t with globals := t.globals.insert name ⟨ref, type, isMutable, isPublic⟩ })

/-- Makes a module reachable by an alias. -/
def addImport (t : Tables) (handle target : ModulePath) : Tables :=
  { t with imports := t.imports.insert handle target }

/-- The module that an alias stands for. -/
def target? (t : Tables) (handle : ModulePath) : Option ModulePath := t.imports[handle]?

/-- Records the use of a global of another module. -/
def addExternal (t : Tables) (ref : GlobalRef) : Tables :=
  if ref ∈ t.externals then t else { t with externals := t.externals ++ [ref] }

/-- The names after a call. A declaration that fails leaves them as they are. -/
def perform (own : ModulePath) (t : Tables) : Call → Tables
  | .declareFunction name arity isPublic =>
    ((t.declareFunction? own name arity isPublic).map (·.2)).getD t
  | .declareGlobal name type isMutable isPublic =>
    ((t.declareGlobal? own name type isMutable isPublic).map (·.2)).getD t
  | .addImport handle target => t.addImport handle target
  | .addExternal ref => t.addExternal ref

/-- The names of a module after some calls, of which it declared nothing before the first. -/
def after (own : ModulePath) (calls : List Call) : Tables := calls.foldl (perform own) .empty

/-- Tables and lists give the same answers, and declare the same. -/
structure Agrees (own : ModulePath) (t : Tables) (s : Symbols) : Prop where
  functionsOf : ∀ name arity, t.functionsOf name arity = s.functionsOf name arity
  hasFunctionNamed : ∀ name publicOnly,
    t.hasFunctionNamed name publicOnly = s.hasFunctionNamed name publicOnly
  functionCount : t.functionCount = s.functionCount
  global? : ∀ name, t.global? name = s.global? name
  target? : ∀ handle, t.target? handle = s.target? handle
  externals : t.externals = s.externals
  declareFunction? : ∀ name arity isPublic,
    (t.declareFunction? own name arity isPublic).map (·.1) =
      (s.declareFunction? own name arity isPublic).map (·.1)
  declareGlobal? : ∀ name type isMutable isPublic,
    (t.declareGlobal? own name type isMutable isPublic).map (·.1) =
      (s.declareGlobal? own name type isMutable isPublic).map (·.1)

/-- The tables hold what the lists hold: by key, and in all entries together. -/
structure Represents (t : Tables) (s : Symbols) : Prop where
  functionsOf : ∀ name arity, t.functionsOf name arity = s.functionsOf name arity
  filed : (t.functions.toList.flatMap (·.2)).Perm s.functions
  counts : ∀ name, t.counts.getD name 0 = s.countNamed name
  global? : ∀ name, t.global? name = s.global? name
  target? : ∀ handle, t.target? handle = s.target? handle
  externals : t.externals = s.externals

variable {own : ModulePath} {t : Tables} {s : Symbols}

theorem represents_empty : Tables.empty.Represents .empty where
  functionsOf _ _ := Std.HashMap.getD_empty
  filed := by
    change ((∅ : Std.HashMap _ _).toList.flatMap _).Perm []
    rw [Std.HashMap.toList_empty]
    exact .nil
  counts _ := Std.HashMap.getD_empty
  global? _ := Std.HashMap.getElem?_empty
  target? _ := Std.HashMap.getElem?_empty
  externals := rfl

/-- Elements that give nothing may be left out. -/
theorem flatMap_filter_of_forall {α β : Type} {p : α → Bool} {f : α → List β} {l : List α}
    (h : ∀ a ∈ l, p a = false → f a = []) : (l.filter p).flatMap f = l.flatMap f := by
  induction l with
  | nil => rfl
  | cons a rest ih =>
    have hrest := ih fun b hb => h b (.tail a hb)
    rw [List.filter_cons, List.flatMap_cons]
    cases hp : p a with
    | true => rw [if_pos rfl, List.flatMap_cons, hrest]
    | false => rw [if_neg Bool.false_ne_true, h a List.mem_cons_self hp, List.nil_append, hrest]

theorem foldl_length {α β : Type} (f : α → List β) (l : List α) (count : Nat) :
    l.foldl (fun count a => count + (f a).length) count = count + (l.flatMap f).length := by
  induction l generalizing count with
  | nil => rfl
  | cons a rest ih =>
    rw [List.foldl_cons, ih, List.flatMap_cons, List.length_append, Nat.add_assoc]

/-- A function filed under a key of which there was none is one more of those in all entries. -/
theorem filed_insert {table : Std.HashMap (String × Nat) (List FunctionSymbol)}
    {key : String × Nat} (hnone : table.getD key [] = []) (f : FunctionSymbol) :
    ((table.insert key [f]).toList.flatMap (·.2)).Perm (table.toList.flatMap (·.2) ++ [f]) := by
  refine (Std.HashMap.toList_insert_perm.flatMap_right _).trans ?_
  rw [List.flatMap_cons, flatMap_filter_of_forall]
  · exact List.perm_append_comm
  rintro ⟨other, functions⟩ hmem hkey
  obtain rfl : key = other := by simpa using hkey
  rwa [Std.HashMap.getD_eq_getD_getElem?,
    Std.HashMap.mem_toList_iff_getElem?_eq_some.mp hmem] at hnone

theorem declareFunction?_of_eq_nil {name : String} {arity : Nat}
    (h : t.functionsOf name arity = []) (own : ModulePath) (isPublic : Bool) :
    t.declareFunction? own name arity isPublic =
      some (⟨own, name, arity, t.counts.getD name 0⟩, { t with
        functions := t.functions.insert (name, arity)
          [⟨⟨own, name, arity, t.counts.getD name 0⟩, isPublic⟩]
        counts := t.counts.insert name (t.counts.getD name 0 + 1) }) := by
  unfold declareFunction?
  rw [h, List.isEmpty_nil, if_pos rfl]
  rfl

theorem declareFunction?_of_ne_nil {name : String} {arity : Nat}
    (h : t.functionsOf name arity ≠ []) (own : ModulePath) (isPublic : Bool) :
    t.declareFunction? own name arity isPublic = none := by
  unfold declareFunction?
  rw [if_neg (by rwa [List.isEmpty_iff])]

theorem perform_declareFunction (own : ModulePath) (t : Tables) (name : String) (arity : Nat)
    (isPublic : Bool) :
    t.perform own (.declareFunction name arity isPublic) =
      ((t.declareFunction? own name arity isPublic).map (·.2)).getD t := rfl

theorem perform_declareGlobal (own : ModulePath) (t : Tables) (name : String) (type : ValueType)
    (isMutable isPublic : Bool) :
    t.perform own (.declareGlobal name type isMutable isPublic) =
      ((t.declareGlobal? own name type isMutable isPublic).map (·.2)).getD t := rfl

namespace Represents

/-- The tables of functions and of their numbers change together. -/
theorem addFunction (h : t.Represents s) {f : FunctionSymbol}
    (hnil : t.functionsOf f.ref.name f.ref.arity = []) :
    { t with
      functions := t.functions.insert (f.ref.name, f.ref.arity) [f]
      counts := t.counts.insert f.ref.name (t.counts.getD f.ref.name 0 + 1) }.Represents
        { s with functions := s.functions ++ [f] } where
  functionsOf name arity := by
    have hs := h.functionsOf name arity
    unfold Tables.functionsOf at hs hnil ⊢
    unfold Symbols.functionsOf at hs ⊢
    rw [Std.HashMap.getD_insert, List.filter_append, ← hs]
    by_cases hkey : f.ref.name = name ∧ f.ref.arity = arity
    · obtain ⟨rfl, rfl⟩ := hkey
      rw [if_pos BEq.rfl, hnil, List.filter_cons_of_pos (by simp)]
      rfl
    · rw [if_neg (by simpa using hkey), List.filter_cons_of_neg (by simpa using hkey)]
      exact (List.append_nil _).symm
  filed := (filed_insert hnil f).trans (h.filed.append_right _)
  counts name := by
    have hs := h.counts name
    unfold Symbols.countNamed at hs ⊢
    rw [Std.HashMap.getD_insert, List.countP_append, List.countP_singleton, ← hs]
    by_cases hname : f.ref.name = name
    · subst hname
      rw [if_pos BEq.rfl, if_pos BEq.rfl]
    · rw [if_neg (by simpa using hname), if_neg (by simpa using hname), Nat.add_zero]
  global? := h.global?
  target? := h.target?
  externals := h.externals

theorem addGlobal (h : t.Represents s) {g : GlobalSymbol} (hnone : s.global? g.ref.name = none) :
    { t with globals := t.globals.insert g.ref.name g }.Represents
      { s with globals := s.globals ++ [g] } where
  functionsOf := h.functionsOf
  filed := h.filed
  counts := h.counts
  global? name := by
    have hs := h.global? name
    unfold Tables.global? Symbols.global? at hs ⊢
    rw [Std.HashMap.getElem?_insert, List.find?_append, ← hs]
    by_cases hname : g.ref.name = name
    · subst hname
      rw [if_pos BEq.rfl, hs]
      unfold Symbols.global? at hnone
      rw [hnone, List.find?_cons_of_pos (by simp), Option.none_or]
    · rw [if_neg (by simpa using hname), List.find?_cons_of_neg (by simpa using hname),
        List.find?_nil, Option.or_none]
  target? := h.target?
  externals := h.externals

theorem addImport (h : t.Represents s) (handle target : ModulePath) :
    (t.addImport handle target).Represents (s.addImport handle target) where
  functionsOf := h.functionsOf
  filed := h.filed
  counts := h.counts
  global? := h.global?
  target? other := by
    rw [Symbols.target?_addImport, ← h.target?]
    change (t.imports.insert handle target)[other]? = _
    rw [Std.HashMap.getElem?_insert]
    by_cases hother : other = handle
    · rw [if_pos hother, if_pos (by simp [hother])]
    · rw [if_neg hother, if_neg (by simpa using fun heq => hother (Eq.symm heq))]
      rfl
  externals := h.externals

theorem addExternal (h : t.Represents s) (ref : GlobalRef) :
    (t.addExternal ref).Represents (s.addExternal ref) := by
  unfold Tables.addExternal Symbols.addExternal
  rw [h.externals]
  split
  · exact h
  · exact ⟨h.functionsOf, h.filed, h.counts, h.global?, h.target?, rfl⟩

/-- A function is declared in both or in neither, with the same number. -/
theorem declareFunction (h : t.Represents s) (own : ModulePath) (name : String) (arity : Nat)
    (isPublic : Bool) :
    (t.perform own (.declareFunction name arity isPublic)).Represents
        (s.perform own (.declareFunction name arity isPublic)) ∧
      (t.declareFunction? own name arity isPublic).map (·.1) =
        (s.declareFunction? own name arity isPublic).map (·.1) := by
  rw [perform_declareFunction, Symbols.perform_declareFunction]
  obtain ⟨hne, hs⟩ | ⟨hnil, hs⟩ := Symbols.declareFunction?_eq own s name arity isPublic
  · rw [hs, declareFunction?_of_ne_nil (by rwa [h.functionsOf])]
    exact ⟨h, rfl⟩
  · rw [← h.functionsOf] at hnil
    rw [hs, declareFunction?_of_eq_nil hnil, ← h.counts]
    exact ⟨h.addFunction (f := ⟨⟨own, name, arity, _⟩, isPublic⟩) hnil, rfl⟩

/-- A global is declared in both or in neither. -/
theorem declareGlobal (h : t.Represents s) (own : ModulePath) (name : String) (type : ValueType)
    (isMutable isPublic : Bool) :
    (t.perform own (.declareGlobal name type isMutable isPublic)).Represents
        (s.perform own (.declareGlobal name type isMutable isPublic)) ∧
      (t.declareGlobal? own name type isMutable isPublic).map (·.1) =
        (s.declareGlobal? own name type isMutable isPublic).map (·.1) := by
  rw [perform_declareGlobal, Symbols.perform_declareGlobal]
  unfold Tables.declareGlobal? Symbols.declareGlobal?
  rw [h.global?]
  cases hg : s.global? name with
  | some g => exact ⟨h, rfl⟩
  | none => exact ⟨h.addGlobal (g := ⟨⟨own, name⟩, type, isMutable, isPublic⟩) hg, rfl⟩

theorem perform (h : t.Represents s) (own : ModulePath) (call : Call) :
    (t.perform own call).Represents (s.perform own call) := by
  cases call with
  | declareFunction name arity isPublic => exact (h.declareFunction own name arity isPublic).1
  | declareGlobal name type isMutable isPublic =>
    exact (h.declareGlobal own name type isMutable isPublic).1
  | addImport handle target => exact h.addImport handle target
  | addExternal ref => exact h.addExternal ref

/-- Whatever is called, tables and lists change together. -/
theorem after (own : ModulePath) (calls : List Call) :
    (Tables.after own calls).Represents (Symbols.after own calls) := by
  suffices ∀ {t s}, Represents t s →
      (calls.foldl (Tables.perform own) t).Represents (calls.foldl (Symbols.perform own) s) from
    this represents_empty
  induction calls with
  | nil => exact id
  | cons call rest ih => exact fun h => ih (h.perform own call)

theorem hasFunctionNamed (h : t.Represents s) (name : String) (publicOnly : Bool) :
    t.hasFunctionNamed name publicOnly = s.hasFunctionNamed name publicOnly := by
  unfold Tables.hasFunctionNamed Symbols.hasFunctionNamed
  rw [Bool.eq_iff_iff, List.any_eq_true, List.any_eq_true]
  constructor
  · rintro ⟨⟨⟨name', arity⟩, functions⟩, hmem, hany⟩
    rw [Std.HashMap.mem_toList_iff_getElem?_eq_some] at hmem
    rw [Bool.and_eq_true, beq_iff_eq, List.any_eq_true] at hany
    obtain ⟨rfl, f, hf, hpublic⟩ := hany
    have hof := h.functionsOf name' arity
    rw [Tables.functionsOf, Std.HashMap.getD_eq_getD_getElem?, hmem, Option.getD_some] at hof
    rw [hof, Symbols.mem_functionsOf] at hf
    exact ⟨f, hf.1, by rw [hpublic, hf.2.1, BEq.rfl, Bool.and_self]⟩
  · rintro ⟨f, hf, hboth⟩
    rw [Bool.and_eq_true, beq_iff_eq] at hboth
    obtain ⟨rfl, hpublic⟩ := hboth
    have hof : f ∈ t.functionsOf f.ref.name f.ref.arity := by
      rw [h.functionsOf, Symbols.mem_functionsOf]
      exact ⟨hf, rfl, rfl⟩
    rw [Tables.functionsOf, Std.HashMap.getD_eq_getD_getElem?] at hof
    cases hentry : t.functions[(f.ref.name, f.ref.arity)]? with
    | none =>
      rw [hentry] at hof
      cases hof
    | some functions =>
      rw [hentry, Option.getD_some] at hof
      refine ⟨(_, functions), Std.HashMap.mem_toList_iff_getElem?_eq_some.mpr hentry, ?_⟩
      rw [Bool.and_eq_true, List.any_eq_true]
      exact ⟨BEq.rfl, f, hof, hpublic⟩

theorem functionCount (h : t.Represents s) : t.functionCount = s.functionCount := by
  unfold Tables.functionCount
  rw [Std.HashMap.fold_eq_foldl_toList, foldl_length, Nat.zero_add]
  exact h.filed.length_eq

theorem agrees (h : t.Represents s) (own : ModulePath) : t.Agrees own s where
  functionsOf := h.functionsOf
  hasFunctionNamed := h.hasFunctionNamed
  functionCount := h.functionCount
  global? := h.global?
  target? := h.target?
  externals := h.externals
  declareFunction? name arity isPublic := (h.declareFunction own name arity isPublic).2
  declareGlobal? name type isMutable isPublic :=
    (h.declareGlobal own name type isMutable isPublic).2

end Represents

end Tables

/-- After any calls, what a module declares is what the calls returned, and tables by key tell the
same. -/
theorem consistent_after (own : ModulePath) (calls : List Symbols.Call) :
    Symbols.Consistent own calls ∧
      (Tables.after own calls).Agrees own (Symbols.after own calls) :=
  ⟨Symbols.consistent own calls, (Tables.Represents.after own calls).agrees own⟩

end Names

end FrontEnd
