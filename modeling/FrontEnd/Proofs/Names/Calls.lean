import FrontEnd.Proofs.Linking.Names
import Mathlib.Data.List.Induction

/-!
# Names after a sequence of calls

The names of a module come from declarations, aliases and uses of globals of other modules,
in any order. What is declared can be read off what the declarations returned: a name and
an arity are declared by the first attempt and by no later one, and a failed attempt leaves
nothing behind, so that the functions of a name are numbered without gaps.
-/

namespace FrontEnd.Names.Symbols

/-- A call that changes the names of a module. -/
inductive Call where
  | declareFunction (name : String) (arity : Nat) (isPublic : Bool)
  | declareGlobal (name : String) (type : ValueType) (isMutable isPublic : Bool)
  | addImport (handle target : ModulePath)
  | addExternal (ref : GlobalRef)
  deriving DecidableEq, Repr

/-- Whether a call is the declaration of a function. -/
def Call.isFunction : Call → Bool
  | .declareFunction .. => true
  | .declareGlobal .. | .addImport .. | .addExternal .. => false

/-- Whether a call is the declaration of a global. -/
def Call.isGlobal : Call → Bool
  | .declareGlobal .. => true
  | .declareFunction .. | .addImport .. | .addExternal .. => false

/-- The names after a call. A declaration that fails leaves them as they are. -/
def perform (own : ModulePath) (s : Symbols) : Call → Symbols
  | .declareFunction name arity isPublic =>
    ((s.declareFunction? own name arity isPublic).map (·.2)).getD s
  | .declareGlobal name type isMutable isPublic =>
    ((s.declareGlobal? own name type isMutable isPublic).map (·.2)).getD s
  | .addImport handle target => s.addImport handle target
  | .addExternal ref => s.addExternal ref

/-- The names of a module after some calls, of which it declared nothing before the first. -/
def after (own : ModulePath) (calls : List Call) : Symbols := calls.foldl (perform own) .empty

/-- The function that a call declares, with what the call returns. -/
def declaredFunction? (own : ModulePath) (s : Symbols) : Call → Option FunctionSymbol
  | .declareFunction name arity isPublic =>
    (s.declareFunction? own name arity isPublic).map fun (ref, _) => ⟨ref, isPublic⟩
  | .declareGlobal .. | .addImport .. | .addExternal .. => none

/-- The global that a call declares, with what the call returns. -/
def declaredGlobal? (own : ModulePath) (s : Symbols) : Call → Option GlobalSymbol
  | .declareGlobal name type isMutable isPublic =>
    (s.declareGlobal? own name type isMutable isPublic).map fun (ref, _) =>
      ⟨ref, type, isMutable, isPublic⟩
  | .declareFunction .. | .addImport .. | .addExternal .. => none

/-- What calls add one after the other, to a module with some names. -/
def collect {α : Type} (own : ModulePath) (added? : Symbols → Call → Option α) :
    Symbols → List Call → List α
  | _, [] => []
  | s, call :: rest => (added? s call).toList ++ collect own added? (s.perform own call) rest

/-- The functions that calls declare one after the other, each with what its declaration returns. -/
def declaredFunctions (own : ModulePath) (calls : List Call) : List FunctionSymbol :=
  collect own (declaredFunction? own) .empty calls

/-- The globals that calls declare one after the other, each with what its declaration returns. -/
def declaredGlobals (own : ModulePath) (calls : List Call) : List GlobalSymbol :=
  collect own (declaredGlobal? own) .empty calls

variable {own : ModulePath} {s s' : Symbols} {name : String} {arity : Nat} {calls : List Call}

theorem perform_declareFunction (own : ModulePath) (s : Symbols) (name : String) (arity : Nat)
    (isPublic : Bool) :
    s.perform own (.declareFunction name arity isPublic) =
      ((s.declareFunction? own name arity isPublic).map (·.2)).getD s := rfl

theorem perform_declareGlobal (own : ModulePath) (s : Symbols) (name : String) (type : ValueType)
    (isMutable isPublic : Bool) :
    s.perform own (.declareGlobal name type isMutable isPublic) =
      ((s.declareGlobal? own name type isMutable isPublic).map (·.2)).getD s := rfl

/-! ## One call -/

/-- A function is declared if there is none of its name and arity, and is numbered by how many of
its name there are. -/
theorem declareFunction?_eq (own : ModulePath) (s : Symbols) (name : String) (arity : Nat)
    (isPublic : Bool) :
    (s.functionsOf name arity ≠ [] ∧ s.declareFunction? own name arity isPublic = none) ∨
    (s.functionsOf name arity = [] ∧
      s.declareFunction? own name arity isPublic =
        some (⟨own, name, arity, s.countNamed name⟩, { s with
          functions := s.functions ++ [⟨⟨own, name, arity, s.countNamed name⟩, isPublic⟩] })) := by
  unfold declareFunction?
  by_cases hnone : s.functionsOf name arity = []
  · exact .inr ⟨hnone, by rw [hnone, List.isEmpty_nil, if_pos rfl]⟩
  · exact .inl ⟨hnone, if_neg (by rwa [List.isEmpty_iff])⟩

/-- A global is declared if there is none of its name. -/
theorem declareGlobal?_eq (own : ModulePath) (s : Symbols) (name : String) (type : ValueType)
    (isMutable isPublic : Bool) :
    (s.global? name ≠ none ∧ s.declareGlobal? own name type isMutable isPublic = none) ∨
    (s.global? name = none ∧
      s.declareGlobal? own name type isMutable isPublic =
        some (⟨own, name⟩,
          { s with globals := s.globals ++ [⟨⟨own, name⟩, type, isMutable, isPublic⟩] })) := by
  unfold declareGlobal?
  cases hg : s.global? name with
  | some g => exact .inl ⟨Option.some_ne_none g, rfl⟩
  | none => exact .inr ⟨rfl, rfl⟩

theorem declareFunction?_eq_none_iff {isPublic : Bool} :
    s.declareFunction? own name arity isPublic = none ↔ s.functionsOf name arity ≠ [] := by
  obtain ⟨hne, h⟩ | ⟨hnil, h⟩ := declareFunction?_eq own s name arity isPublic
  · exact iff_of_true h hne
  · rw [h]
    exact iff_of_false (Option.some_ne_none _) fun hne => hne hnil

theorem declareGlobal?_eq_none_iff {type : ValueType} {isMutable isPublic : Bool} :
    s.declareGlobal? own name type isMutable isPublic = none ↔ s.global? name ≠ none := by
  obtain ⟨hne, h⟩ | ⟨hnone, h⟩ := declareGlobal?_eq own s name type isMutable isPublic
  · exact iff_of_true h hne
  · rw [h]
    exact iff_of_false (Option.some_ne_none _) fun hne => hne hnone

/-- A call adds what it declares to the functions and globals, and changes them in no other way. -/
theorem perform_eq (own : ModulePath) (s : Symbols) (call : Call) :
    ∃ imports externals, s.perform own call =
      ⟨s.functions ++ (s.declaredFunction? own call).toList,
        s.globals ++ (s.declaredGlobal? own call).toList, imports, externals⟩ := by
  cases call with
  | declareFunction name arity isPublic =>
    refine ⟨s.imports, s.externals, ?_⟩
    obtain ⟨-, h⟩ | ⟨-, h⟩ := declareFunction?_eq own s name arity isPublic <;>
      simp [perform, declaredFunction?, declaredGlobal?, h]
  | declareGlobal name type isMutable isPublic =>
    refine ⟨s.imports, s.externals, ?_⟩
    obtain ⟨-, h⟩ | ⟨-, h⟩ := declareGlobal?_eq own s name type isMutable isPublic <;>
      simp [perform, declaredFunction?, declaredGlobal?, h]
  | addImport handle target =>
    refine ⟨(handle, target) :: s.imports, s.externals, ?_⟩
    simp [perform, declaredFunction?, declaredGlobal?, addImport]
  | addExternal ref =>
    refine ⟨s.imports, (s.addExternal ref).externals, ?_⟩
    simp only [perform, declaredFunction?, declaredGlobal?, addExternal]
    split <;> simp

theorem functions_perform (own : ModulePath) (s : Symbols) (call : Call) :
    (s.perform own call).functions = s.functions ++ (s.declaredFunction? own call).toList := by
  obtain ⟨imports, externals, h⟩ := perform_eq own s call
  rw [h]

theorem globals_perform (own : ModulePath) (s : Symbols) (call : Call) :
    (s.perform own call).globals = s.globals ++ (s.declaredGlobal? own call).toList := by
  obtain ⟨imports, externals, h⟩ := perform_eq own s call
  rw [h]

/-! ## A sequence of calls -/

theorem after_concat (own : ModulePath) (calls : List Call) (call : Call) :
    after own (calls ++ [call]) = (after own calls).perform own call := by
  unfold after
  rw [List.foldl_append, List.foldl_cons, List.foldl_nil]

/-- What one call after the other keeps holds after all of them. -/
theorem after_induction {P : List Call → Symbols → Prop} (empty : P [] .empty)
    (step : ∀ calls call, P calls (after own calls) →
      P (calls ++ [call]) ((after own calls).perform own call))
    (calls : List Call) : P calls (after own calls) := by
  induction calls using List.reverseRecOn with
  | nil => exact empty
  | append_singleton calls call ih =>
    rw [after_concat]
    exact step calls call ih

section View

variable {α : Type} {view : Symbols → List α} {added? : Symbols → Call → Option α}

/-- What every call extends by what it adds is in the end all that was added. -/
theorem view_after (hempty : view .empty = [])
    (hperform : ∀ s call, view (s.perform own call) = view s ++ (added? s call).toList)
    (calls : List Call) : view (after own calls) = collect own added? .empty calls := by
  suffices ∀ s, view (calls.foldl (perform own) s) = view s ++ collect own added? s calls by
    rw [after, this, hempty, List.nil_append]
  induction calls with
  | nil => exact fun s => (List.append_nil _).symm
  | cons call rest ih =>
    intro s
    rw [List.foldl_cons, ih, hperform, List.append_assoc, collect]

/-- Calls that add nothing make no difference to what only depends on what was added before. -/
theorem view_after_filter {p : Call → Bool}
    (hperform : ∀ s call, view (s.perform own call) = view s ++ (added? s call).toList)
    (hcongr : ∀ s s' call, view s = view s' → added? s call = added? s' call)
    (hnone : ∀ s call, p call = false → added? s call = none) (calls : List Call) :
    view (after own (calls.filter p)) = view (after own calls) := by
  suffices ∀ s s' : Symbols, view s = view s' →
      view ((calls.filter p).foldl (perform own) s) = view (calls.foldl (perform own) s') from
    this .empty .empty rfl
  induction calls with
  | nil => exact fun _ _ h => h
  | cons call rest ih =>
    intro s s' h
    rw [List.filter_cons, List.foldl_cons]
    cases hp : p call with
    | true =>
      rw [if_pos rfl, List.foldl_cons]
      refine ih _ _ ?_
      rw [hperform, hperform, h, hcongr s s' call h]
    | false =>
      rw [if_neg Bool.false_ne_true]
      refine ih _ _ ?_
      rw [hperform, hnone s' call hp, h]
      exact (List.append_nil _).symm

end View

/-- The functions of a module are those that the calls declared, in the order of the calls. -/
theorem functions_after (own : ModulePath) (calls : List Call) :
    (after own calls).functions = declaredFunctions own calls :=
  view_after rfl (functions_perform own) calls

/-- The globals of a module are those that the calls declared, in the order of the calls. -/
theorem globals_after (own : ModulePath) (calls : List Call) :
    (after own calls).globals = declaredGlobals own calls :=
  view_after rfl (globals_perform own) calls

/-! ## Functions -/

/-- A call declares the function that it is to declare, unless there is one of the same name and
arity, and no other. -/
theorem declaredFunction?_cases (own : ModulePath) (s : Symbols) (call : Call) :
    (s.declaredFunction? own call = none ∧ ∀ name arity isPublic,
      call = .declareFunction name arity isPublic → s.functionsOf name arity ≠ []) ∨
    (∃ name arity isPublic, call = .declareFunction name arity isPublic ∧
      s.functionsOf name arity = [] ∧
      s.declaredFunction? own call =
        some ⟨⟨own, name, arity, s.countNamed name⟩, isPublic⟩) := by
  cases call with
  | declareFunction name arity isPublic =>
    obtain ⟨hne, h⟩ | ⟨hnone, h⟩ := declareFunction?_eq own s name arity isPublic
    · refine .inl ⟨by simp [declaredFunction?, h], ?_⟩
      rintro _ _ _ ⟨⟩
      exact hne
    · exact .inr ⟨name, arity, isPublic, rfl, hnone, by simp [declaredFunction?, h]⟩
  | declareGlobal | addImport | addExternal => exact .inl ⟨rfl, fun _ _ _ h => nomatch h⟩

theorem functionsOf_perform (own : ModulePath) (s : Symbols) (call : Call) (name : String)
    (arity : Nat) :
    (s.perform own call).functionsOf name arity = s.functionsOf name arity ++
      (s.declaredFunction? own call).toList.filter
        fun f => f.ref.name == name && f.ref.arity == arity := by
  unfold functionsOf
  rw [functions_perform, List.filter_append]

/-- A name and an arity are declared by the first attempt to declare them. -/
theorem functionsOf_after_eq_nil_iff (own : ModulePath) (calls : List Call) (name : String)
    (arity : Nat) :
    (after own calls).functionsOf name arity = [] ↔
      ∀ isPublic, .declareFunction name arity isPublic ∉ calls := by
  refine after_induction (P := fun calls s => s.functionsOf name arity = [] ↔
    ∀ isPublic, .declareFunction name arity isPublic ∉ calls) ?_ ?_ calls
  · exact ⟨fun _ _ => List.not_mem_nil, fun _ => rfl⟩
  intro calls call ih
  rw [functionsOf_perform, List.append_eq_nil_iff, ih]
  simp only [List.mem_append, List.mem_singleton, not_or, forall_and]
  refine and_congr_right fun hnone => ?_
  obtain ⟨hd, hcall⟩ | ⟨name', arity', isPublic', rfl, -, hd⟩ :=
    declaredFunction?_cases own (after own calls) call
  · rw [hd]
    refine ⟨fun _ isPublic heq => ?_, fun _ => rfl⟩
    exact hcall name arity isPublic heq.symm (ih.mpr hnone)
  · rw [hd]
    simp only [Option.toList_some, List.filter_eq_nil_iff, List.mem_singleton, forall_eq,
      Bool.and_eq_true, beq_iff_eq, not_and, Call.declareFunction.injEq]
    exact ⟨fun h _ hname harity _ => h hname.symm harity.symm,
      fun h hname harity => h isPublic' hname.symm harity.symm rfl⟩

/-- No two functions agree in name and arity. -/
theorem length_functionsOf_after_le (own : ModulePath) (calls : List Call) (name : String)
    (arity : Nat) : ((after own calls).functionsOf name arity).length ≤ 1 := by
  refine after_induction (P := fun _ s => (s.functionsOf name arity).length ≤ 1)
    (Nat.zero_le 1) (fun calls call ih => ?_) calls
  rw [functionsOf_perform]
  obtain ⟨hd, -⟩ | ⟨name', arity', isPublic, rfl, hnone, hd⟩ :=
    declaredFunction?_cases own (after own calls) call
  · rw [hd, Option.toList_none, List.filter_nil, List.append_nil]
    exact ih
  · rw [hd, Option.toList_some]
    by_cases hsame : name' = name ∧ arity' = arity
    · obtain ⟨rfl, rfl⟩ := hsame
      rw [hnone, List.nil_append]
      exact List.length_filter_le _ _
    · rw [List.filter_cons_of_neg (by simpa using hsame), List.filter_nil, List.append_nil]
      exact ih

/-- The functions of a name are numbered in the order of their declaration. -/
theorem indices_after (own : ModulePath) (calls : List Call) (name : String) :
    ((after own calls).functions.filter (·.ref.name == name)).map (·.ref.index) =
      List.range ((after own calls).countNamed name) := by
  refine after_induction (P := fun _ s => (s.functions.filter (·.ref.name == name)).map
    (·.ref.index) = List.range (s.countNamed name)) rfl (fun calls call ih => ?_) calls
  unfold countNamed at ih ⊢
  rw [functions_perform, List.filter_append, List.map_append, ih, List.countP_append]
  obtain ⟨hd, -⟩ | ⟨name', arity, isPublic, rfl, -, hd⟩ :=
    declaredFunction?_cases own (after own calls) call
  · rw [hd]
    exact List.append_nil _
  · rw [hd, Option.toList_some, List.countP_singleton]
    by_cases hsame : name' = name
    · subst hsame
      rw [if_pos BEq.rfl, List.filter_cons_of_pos (by simp), List.range_succ]
      rfl
    · rw [if_neg (by simpa using hsame), List.filter_cons_of_neg (by simpa using hsame)]
      exact List.append_nil _

/-! ## Globals -/

/-- A call declares the global that it is to declare, unless there is one of the same name, and no
other. -/
theorem declaredGlobal?_cases (own : ModulePath) (s : Symbols) (call : Call) :
    (s.declaredGlobal? own call = none ∧ ∀ name type isMutable isPublic,
      call = .declareGlobal name type isMutable isPublic → s.global? name ≠ none) ∨
    (∃ name type isMutable isPublic, call = .declareGlobal name type isMutable isPublic ∧
      s.global? name = none ∧
      s.declaredGlobal? own call = some ⟨⟨own, name⟩, type, isMutable, isPublic⟩) := by
  cases call with
  | declareGlobal name type isMutable isPublic =>
    obtain ⟨hne, h⟩ | ⟨hnone, h⟩ := declareGlobal?_eq own s name type isMutable isPublic
    · refine .inl ⟨by simp [declaredGlobal?, h], ?_⟩
      rintro _ _ _ _ ⟨⟩
      exact hne
    · exact .inr ⟨name, type, isMutable, isPublic, rfl, hnone, by simp [declaredGlobal?, h]⟩
  | declareFunction | addImport | addExternal => exact .inl ⟨rfl, fun _ _ _ _ h => nomatch h⟩

theorem global?_perform (own : ModulePath) (s : Symbols) (call : Call) (name : String) :
    (s.perform own call).global? name =
      (s.global? name).or ((s.declaredGlobal? own call).toList.find? (·.ref.name == name)) := by
  unfold global?
  rw [globals_perform, List.find?_append]

/-- A name is declared by the first attempt to declare it. -/
theorem global?_after_eq_none_iff (own : ModulePath) (calls : List Call) (name : String) :
    (after own calls).global? name = none ↔
      ∀ type isMutable isPublic, .declareGlobal name type isMutable isPublic ∉ calls := by
  refine after_induction (P := fun calls s => s.global? name = none ↔
    ∀ type isMutable isPublic, .declareGlobal name type isMutable isPublic ∉ calls) ?_ ?_ calls
  · exact ⟨fun _ _ _ _ => List.not_mem_nil, fun _ => rfl⟩
  intro calls call ih
  rw [global?_perform, Option.or_eq_none_iff, ih]
  simp only [List.mem_append, List.mem_singleton, not_or, forall_and]
  refine and_congr_right fun hnone => ?_
  obtain ⟨hd, hcall⟩ | ⟨name', type', isMutable', isPublic', rfl, -, hd⟩ :=
    declaredGlobal?_cases own (after own calls) call
  · rw [hd]
    refine ⟨fun _ type isMutable isPublic heq => ?_, fun _ => rfl⟩
    exact hcall name type isMutable isPublic heq.symm (ih.mpr hnone)
  · rw [hd]
    simp only [Option.toList_some, List.find?_eq_none, List.mem_singleton, forall_eq, beq_iff_eq,
      not_and, Call.declareGlobal.injEq]
    exact ⟨fun h _ _ _ hname _ _ _ => h hname.symm,
      fun h hname => h type' isMutable' isPublic' hname.symm rfl rfl rfl⟩

/-- There is no global of a name beside the one that a lookup finds. -/
theorem filter_globals_after (own : ModulePath) (calls : List Call) (name : String) :
    (after own calls).globals.filter (·.ref.name == name) =
      ((after own calls).global? name).toList := by
  refine after_induction (P := fun _ s => s.globals.filter (·.ref.name == name) =
    (s.global? name).toList) rfl (fun calls call ih => ?_) calls
  rw [global?_perform, globals_perform, List.filter_append, ih]
  obtain ⟨hd, -⟩ | ⟨name', type, isMutable, isPublic, rfl, hnone, hd⟩ :=
    declaredGlobal?_cases own (after own calls) call
  · rw [hd, Option.toList_none, List.filter_nil, List.append_nil, List.find?_nil, Option.or_none]
  · rw [hd, Option.toList_some]
    by_cases hsame : name' = name
    · subst hsame
      rw [hnone, List.filter_cons_of_pos (by simp), List.find?_cons_of_pos (by simp)]
      rfl
    · rw [List.filter_cons_of_neg (by simpa using hsame),
        List.find?_cons_of_neg (by simpa using hsame), List.filter_nil, List.append_nil,
        List.find?_nil, Option.or_none]

/-! ## Functions and globals apart -/

theorem declaredFunction?_declareFunction (own : ModulePath) (s : Symbols) (name : String)
    (arity : Nat) (isPublic : Bool) :
    s.declaredFunction? own (.declareFunction name arity isPublic) =
      if (s.functionsOf name arity).isEmpty then
        some ⟨⟨own, name, arity, s.countNamed name⟩, isPublic⟩
      else none := by
  unfold declaredFunction? declareFunction?
  dsimp only
  split <;> rfl

theorem declaredFunction?_congr (s s' : Symbols) (call : Call) (h : s.functions = s'.functions) :
    s.declaredFunction? own call = s'.declaredFunction? own call := by
  cases call with
  | declareFunction name arity isPublic =>
    rw [declaredFunction?_declareFunction, declaredFunction?_declareFunction]
    unfold functionsOf countNamed
    rw [h]
  | declareGlobal | addImport | addExternal => rfl

theorem declaredGlobal?_congr (s s' : Symbols) (call : Call) (h : s.globals = s'.globals) :
    s.declaredGlobal? own call = s'.declaredGlobal? own call := by
  cases call with
  | declareGlobal name type isMutable isPublic =>
    simp only [declaredGlobal?, declareGlobal?, global?, h]
    split <;> rfl
  | declareFunction | addImport | addExternal => rfl

/-- The functions of a module do not depend on its globals. -/
theorem functions_after_filter (own : ModulePath) (calls : List Call) :
    (after own (calls.filter (!·.isGlobal))).functions = (after own calls).functions := by
  refine view_after_filter (functions_perform own) declaredFunction?_congr ?_ calls
  intro s call hp
  cases call with
  | declareFunction => cases hp
  | declareGlobal | addImport | addExternal => rfl

/-- The globals of a module do not depend on its functions. -/
theorem globals_after_filter (own : ModulePath) (calls : List Call) :
    (after own (calls.filter (!·.isFunction))).globals = (after own calls).globals := by
  refine view_after_filter (globals_perform own) declaredGlobal?_congr ?_ calls
  intro s call hp
  cases call with
  | declareGlobal => cases hp
  | declareFunction | addImport | addExternal => rfl

/-! ## What the calls declare -/

/-- What a module declares can be read off what the calls returned. A declaration fails just if it
repeats one, and then it goes unnoticed. -/
structure Consistent (own : ModulePath) (calls : List Call) : Prop where
  /-- There is at most one function of a name and an arity: the one that was declared. -/
  functionsOf : ∀ name arity,
    (after own calls).functionsOf name arity =
        (declaredFunctions own calls).filter (fun f => f.ref.name == name && f.ref.arity == arity) ∧
      ((after own calls).functionsOf name arity).length ≤ 1
  /-- What a declaration returns is numbered by the functions of its name declared before. -/
  declareFunction? : ∀ name arity isPublic ref s',
    (after own calls).declareFunction? own name arity isPublic = some (ref, s') →
      ref = ⟨own, name, arity, (declaredFunctions own calls).countP (·.ref.name == name)⟩ ∧
        s' = after own (calls ++ [.declareFunction name arity isPublic])
  refusesFunction : ∀ name arity isPublic,
    (after own calls).declareFunction? own name arity isPublic = none ↔
      ∃ isPublic', .declareFunction name arity isPublic' ∈ calls
  /-- After whatever comes next, all is as if a failed declaration had not been tried. -/
  functionUnnoticed : ∀ name arity isPublic rest,
    (after own calls).declareFunction? own name arity isPublic = none →
      after own (calls ++ .declareFunction name arity isPublic :: rest) = after own (calls ++ rest)
  /-- The functions of a name have the numbers from zero on, in the order of the calls. -/
  indices : ∀ name,
    ((declaredFunctions own calls).filter (·.ref.name == name)).map (·.ref.index) =
      List.range ((declaredFunctions own calls).countP (·.ref.name == name))
  functionCount : (after own calls).functionCount = (declaredFunctions own calls).length
  hasFunctionNamed : ∀ name publicOnly,
    (after own calls).hasFunctionNamed name publicOnly = true ↔
      ∃ f ∈ declaredFunctions own calls, f.ref.name = name ∧
        (f.isPublic = true ∨ publicOnly = false)
  /-- There is at most one global of a name: the one that was declared. -/
  global? : ∀ name,
    ((after own calls).global? name).toList =
      (declaredGlobals own calls).filter (·.ref.name == name)
  declareGlobal? : ∀ name type isMutable isPublic ref s',
    (after own calls).declareGlobal? own name type isMutable isPublic = some (ref, s') →
      ref = ⟨own, name⟩ ∧ s' = after own (calls ++ [.declareGlobal name type isMutable isPublic])
  refusesGlobal : ∀ name type isMutable isPublic,
    (after own calls).declareGlobal? own name type isMutable isPublic = none ↔
      ∃ type' isMutable' isPublic', .declareGlobal name type' isMutable' isPublic' ∈ calls
  globalUnnoticed : ∀ name type isMutable isPublic rest,
    (after own calls).declareGlobal? own name type isMutable isPublic = none →
      after own (calls ++ .declareGlobal name type isMutable isPublic :: rest) =
        after own (calls ++ rest)
  /-- Declarations of globals make no difference to the functions, and those of functions none to
  the globals. -/
  functionsApart : ∀ name arity,
    (after own (calls.filter (!·.isGlobal))).functionsOf name arity =
      (after own calls).functionsOf name arity
  globalsApart : ∀ name,
    (after own (calls.filter (!·.isFunction))).global? name = (after own calls).global? name

/-- A call that changes nothing goes unnoticed. -/
theorem after_append_cons {call : Call} (h : (after own calls).perform own call = after own calls)
    (rest : List Call) : after own (calls ++ call :: rest) = after own (calls ++ rest) := by
  have hboth : ∀ later, after own (calls ++ later) = later.foldl (perform own) (after own calls) :=
    fun later => List.foldl_append
  rw [hboth, hboth, List.foldl_cons, h]

theorem consistent (own : ModulePath) (calls : List Call) : Consistent own calls where
  functionsOf name arity := by
    rw [← functions_after]
    exact ⟨rfl, length_functionsOf_after_le own calls name arity⟩
  declareFunction? name arity isPublic ref s' h := by
    rw [← functions_after, after_concat, perform_declareFunction, h]
    obtain ⟨-, h'⟩ | ⟨-, h'⟩ := declareFunction?_eq own (after own calls) name arity isPublic
    · cases h'.symm.trans h
    · cases h'.symm.trans h
      exact ⟨rfl, rfl⟩
  refusesFunction name arity isPublic := by
    rw [declareFunction?_eq_none_iff, Ne, functionsOf_after_eq_nil_iff, not_forall_not]
  functionUnnoticed name arity isPublic rest h := by
    refine after_append_cons ?_ rest
    rw [perform_declareFunction, h]
    rfl
  indices name := by
    rw [← functions_after]
    exact indices_after own calls name
  functionCount := by
    rw [← functions_after]
    rfl
  hasFunctionNamed name publicOnly := by
    rw [← functions_after]
    unfold hasFunctionNamed
    simp only [List.any_eq_true, Bool.and_eq_true, beq_iff_eq, Bool.or_eq_true,
      Bool.not_eq_true']
  global? name := by
    rw [← globals_after, filter_globals_after]
  declareGlobal? name type isMutable isPublic ref s' h := by
    rw [after_concat, perform_declareGlobal, h]
    obtain ⟨-, h'⟩ | ⟨-, h'⟩ := declareGlobal?_eq own (after own calls) name type isMutable isPublic
    · cases h'.symm.trans h
    · cases h'.symm.trans h
      exact ⟨rfl, rfl⟩
  refusesGlobal name type isMutable isPublic := by
    rw [declareGlobal?_eq_none_iff, Ne, global?_after_eq_none_iff]
    simp only [not_forall, not_not]
  globalUnnoticed name type isMutable isPublic rest h := by
    refine after_append_cons ?_ rest
    rw [perform_declareGlobal, h]
    rfl
  functionsApart name arity := by
    unfold functionsOf
    rw [functions_after_filter]
  globalsApart name := by
    unfold global?
    rw [globals_after_filter]

-- The second declaration fails, and takes no number.
example :
    ((after ⟨["m"]⟩ [.declareFunction "f" 1 true, .declareFunction "f" 1 false,
      .declareGlobal "f" .bool false true, .declareFunction "f" 0 false]).functionsOf "f" 0).map
        (·.ref.index) = [1] := by decide

end FrontEnd.Names.Symbols
