import FrontEnd.Proofs.Names.Operations

/-!
# Declarations that are still open

What the open scopes show can be read off the operations before. A declaration can be seen
until its scope is closed, and of several of one name the one in the innermost scope is seen.
A sequence that closes what it opens leaves nothing behind but locals.
-/

namespace FrontEnd.Names.Scopes

/-- A local has been declared in a scope with `level` others around it, and since then the function
has stayed the same and the scope has been open. -/
def IsOpen (operations : List Operation) (v : Variable) (slot level : Nat) : Prop :=
  ∃ before rest, operations = before ++ .declare v :: rest ∧
    (after before).slotFor? v = some slot ∧ depthAfter before = level + 1 ∧
    (∀ op ∈ rest, op.isInside) ∧
    ∀ later, later <+: rest → level < depthAfter (before ++ .declare v :: later)

variable {s t : Scopes} {operations : List Operation} {op : Operation} {v : Variable}
  {name : String} {slot level : Nat}

/-! ## What a scope holds -/

/-- The slot of a name in the scope that has a number of others around it. -/
def slotAt? (level : Nat) (name : String) : List Scope → Option Nat
  | [] => none
  | scope :: outer =>
    if level = outer.length then scope.lookup name else slotAt? level name outer

theorem slotAt?_cons_of_ne {scope : Scope} {outer : List Scope} (h : level ≠ outer.length)
    (name : String) : slotAt? level name (scope :: outer) = slotAt? level name outer := if_neg h

theorem slotAt?_length_cons (scope : Scope) (outer : List Scope) (name : String) :
    slotAt? outer.length name (scope :: outer) = scope.lookup name := if_pos rfl

theorem slotAt?_of_le {scopes : List Scope} (h : scopes.length ≤ level) :
    slotAt? level name scopes = none := by
  induction scopes with
  | nil => rfl
  | cons scope outer ih =>
    rw [List.length_cons] at h
    rw [slotAt?, if_neg (by omega), ih (by omega)]

theorem lt_length_of_slotAt? {scopes : List Scope} (h : slotAt? level name scopes = some slot) :
    level < scopes.length := by
  by_contra hle
  rw [slotAt?_of_le (by omega)] at h
  cases h

/-- A scope without the name makes no difference. -/
theorem slotAt?_cons_of_lookup {scope : Scope} (h : scope.lookup name = none) (level : Nat)
    (outer : List Scope) : slotAt? level name (scope :: outer) = slotAt? level name outer := by
  rw [slotAt?]
  split
  · rw [h, slotAt?_of_le (by omega)]
  · rfl

/-- No slot is handed out where no scope is open, or where the innermost one has the name. -/
theorem slotFor?_eq_none_iff :
    s.slotFor? v = none ↔ s.depth = 0 ∨
      ∃ slot level, slotAt? level v.name s.scopes = some slot ∧ s.depth = level + 1 := by
  unfold depth
  obtain ⟨hnone, -, hfull⟩ | ⟨scope, outer, hscopes, hfree, hslot, -⟩ := declare_cases s v
  · apply iff_of_true hnone
    cases hscopes : s.scopes with
    | nil => exact .inl rfl
    | cons scope outer =>
      obtain ⟨slot, hslot⟩ := Option.isSome_iff_exists.mp (hfull scope outer hscopes)
      exact .inr ⟨slot, outer.length, by rwa [slotAt?_length_cons], rfl⟩
  · rw [hslot, hscopes]
    apply iff_of_false (Option.some_ne_none _)
    rintro (hzero | ⟨slot, level, hfound, hlevel⟩)
    · cases hzero
    · cases hlevel
      rw [slotAt?_length_cons, hfree] at hfound
      cases hfound

/-- A name is found if a scope has it. -/
theorem findSome?_lookup_eq_none_iff (scopes : List Scope) (name : String) :
    scopes.findSome? (·.lookup name) = none ↔ ∀ level, slotAt? level name scopes = none := by
  induction scopes with
  | nil => simp [slotAt?]
  | cons scope outer ih =>
    rw [List.findSome?_cons]
    cases hlookup : scope.lookup name with
    | none =>
      simp only [slotAt?_cons_of_lookup hlookup]
      exact ih
    | some slot =>
      apply iff_of_false (Option.some_ne_none slot)
      intro hnone
      have htop := hnone outer.length
      rw [slotAt?_length_cons, hlookup] at htop
      cases htop

/-- A name is found in the innermost scope that has it. -/
theorem findSome?_lookup_eq_some_iff (scopes : List Scope) (name : String) (slot : Nat) :
    scopes.findSome? (·.lookup name) = some slot ↔
      ∃ level, slotAt? level name scopes = some slot ∧
        ∀ level' slot', slotAt? level' name scopes = some slot' → level' ≤ level := by
  induction scopes with
  | nil => simp [slotAt?]
  | cons scope outer ih =>
    rw [List.findSome?_cons]
    cases hlookup : scope.lookup name with
    | none =>
      simp only [slotAt?_cons_of_lookup hlookup]
      exact ih
    | some slot' =>
      have htop : slotAt? outer.length name (scope :: outer) = some slot' := by
        rw [slotAt?_length_cons, hlookup]
      constructor
      · rintro ⟨⟩
        refine ⟨outer.length, htop, fun level' slot' h => ?_⟩
        have hlt := lt_length_of_slotAt? h
        rw [List.length_cons] at hlt
        omega
      · rintro ⟨level, hlevel, hmost⟩
        have hle := hmost _ _ htop
        have hlt := lt_length_of_slotAt? hlevel
        rw [List.length_cons] at hlt
        obtain rfl : level = outer.length := by omega
        exact htop.symm.trans hlevel

/-- Without the innermost scope, the others hold what they held. -/
theorem slotAt?_drop_one_eq_some_iff (scopes : List Scope) :
    slotAt? level name (scopes.drop 1) = some slot ↔
      slotAt? level name scopes = some slot ∧ level < scopes.length - 1 := by
  cases scopes with
  | nil => simp [slotAt?]
  | cons scope outer =>
    rw [List.drop_one, List.tail_cons, List.length_cons, Nat.add_sub_cancel]
    constructor
    · intro h
      have hlt := lt_length_of_slotAt? h
      rw [slotAt?_cons_of_ne (by omega)]
      exact ⟨h, hlt⟩
    · rintro ⟨h, hlt⟩
      rwa [slotAt?_cons_of_ne (by omega)] at h

/-- A declaration can be found in the scope in which it is made, under its name. -/
theorem slotAt?_declare_eq_some_iff {scope : Scope} (h : scope.lookup v.name = none)
    (outer : List Scope) (new : Nat) :
    slotAt? level name (((v.name, new) :: scope) :: outer) = some slot ↔
      slotAt? level name (scope :: outer) = some slot ∨
        (v.name = name ∧ new = slot ∧ outer.length = level) := by
  by_cases hlevel : outer.length = level
  · subst hlevel
    rw [slotAt?_length_cons, slotAt?_length_cons, List.lookup_cons]
    by_cases hname : v.name = name
    · subst hname
      simp [h]
    · have hne : (name == v.name) = false := beq_eq_false_iff_ne.mpr (Ne.symm hname)
      simp [hname, hne]
  · rw [slotAt?_cons_of_ne (Ne.symm hlevel), slotAt?_cons_of_ne (Ne.symm hlevel)]
    simp [hlevel]

/-- A scope holds what it held before, or what has just been declared there. -/
theorem slotAt?_perform_eq_some_iff (s : Scopes) (op : Operation) (level : Nat) (name : String)
    (slot : Nat) :
    slotAt? level name (s.perform op).scopes = some slot ↔
      (slotAt? level name s.scopes = some slot ∧ op.isInside ∧ level < op.depth s.depth) ∨
      (∃ v, op = .declare v ∧ v.name = name ∧ s.slotFor? v = some slot ∧ s.depth = level + 1) := by
  have hlt : slotAt? level name s.scopes = some slot → level < s.depth := lt_length_of_slotAt?
  cases op with
  | start | finish => simp [perform, start, finish, closed, slotAt?, Operation.isInside]
  | descend =>
    rw [perform, descend, slotAt?_cons_of_lookup List.lookup_nil]
    simp only [Operation.isInside, Operation.depth, true_and, reduceCtorEq, false_and, exists_false,
      or_false]
    exact (and_iff_left_of_imp fun h => Nat.lt_succ_of_lt (hlt h)).symm
  | ascend =>
    rw [perform, ascend, slotAt?_drop_one_eq_some_iff]
    simp [Operation.isInside, Operation.depth, depth]
  | declare v =>
    simp only [Operation.isInside, Operation.depth, true_and, Operation.declare.injEq,
      exists_eq_left', and_iff_left_of_imp hlt]
    obtain ⟨hfull, hsame, -⟩ | ⟨scope, outer, hscopes, hnone, hslot, hperform⟩ := declare_cases s v
    · simp [hsame, hfull]
    · rw [hperform, slotAt?_declare_eq_some_iff hnone, ← hscopes, hslot, Option.some_inj, depth,
        hscopes, List.length_cons, Nat.add_right_cancel_iff]

/-! ## Declarations that are still open -/

/-- A declaration is open after an operation if it was before and its scope still is, or if it is
this operation. -/
theorem isOpen_concat_iff :
    IsOpen (operations ++ [op]) v slot level ↔
      (IsOpen operations v slot level ∧ op.isInside ∧ level < op.depth (depthAfter operations)) ∨
      (op = .declare v ∧ (after operations).slotFor? v = some slot ∧
        depthAfter operations = level + 1) := by
  constructor
  · rintro ⟨before, rest, heq, hslot, hdepth, hinside, hlevel⟩
    obtain rfl | ⟨rest, last, rfl⟩ := List.eq_nil_or_concat' rest
    · obtain ⟨rfl, rfl⟩ := List.append_singleton_inj.mp heq
      exact .inr ⟨rfl, hslot, hdepth⟩
    · rw [← List.cons_append, ← List.append_assoc, List.append_singleton_inj] at heq
      obtain ⟨rfl, rfl⟩ := heq
      refine .inl ⟨⟨before, rest, rfl, hslot, hdepth, ?_, ?_⟩, ?_, ?_⟩
      · exact fun op hop => hinside op (List.mem_append_left _ hop)
      · exact fun later hlater => hlevel later (hlater.trans (List.prefix_append ..))
      · exact hinside _ (List.mem_concat_self ..)
      · rw [← depthAfter_concat, List.append_assoc]
        exact hlevel _ (List.prefix_refl _)
  · rintro (⟨⟨before, rest, rfl, hslot, hdepth, hinside, hlevel⟩, hop, hlt⟩ | ⟨rfl, hslot, hdepth⟩)
    · refine ⟨before, rest ++ [op], List.append_assoc .., hslot, hdepth, ?_, ?_⟩
      · exact List.forall_mem_append.mpr ⟨hinside, List.forall_mem_singleton.mpr hop⟩
      · intro later hlater
        obtain rfl | hlater := List.prefix_concat_iff.mp hlater
        · rwa [← List.cons_append, ← List.append_assoc, depthAfter_concat]
        · exact hlevel later hlater
    · refine ⟨operations, [], rfl, hslot, hdepth, nofun, fun later hlater => ?_⟩
      rw [List.prefix_nil.mp hlater, depthAfter_concat, hdepth]
      exact Nat.lt_succ_self level

/-- The open scopes hold the declarations that are still open. -/
theorem slotAt?_after_eq_some_iff (operations : List Operation) (level : Nat) (name : String)
    (slot : Nat) :
    slotAt? level name (after operations).scopes = some slot ↔
      ∃ v, v.name = name ∧ IsOpen operations v slot level := by
  refine after_induction (P := fun operations s => slotAt? level name s.scopes = some slot ↔
    ∃ v, v.name = name ∧ IsOpen operations v slot level) ?_ ?_ operations
  · apply iff_of_false nofun
    rintro ⟨v, -, before, rest, heq, -⟩
    simp at heq
  intro operations op ih
  rw [slotAt?_perform_eq_some_iff, ih]
  simp only [isOpen_concat_iff, ← depth_after]
  constructor
  · rintro (⟨⟨v, hname, hopen⟩, hop⟩ | ⟨v, hop, hname, hdeclared⟩)
    · exact ⟨v, hname, .inl ⟨hopen, hop⟩⟩
    · exact ⟨v, hname, .inr ⟨hop, hdeclared⟩⟩
  · rintro ⟨v, hname, ⟨hopen, hop⟩ | ⟨hop, hdeclared⟩⟩
    · exact .inl ⟨⟨v, hname, hopen⟩, hop⟩
    · exact .inr ⟨v, hop, hname, hdeclared⟩

/-! ## Balanced sequences -/

/-- How many scopes of its own a sequence has open after an operation, unless it closes another one,
declares in another one, or leaves the function. -/
def Operation.nest? : Nat → Operation → Option Nat
  | n, .descend => some (n + 1)
  | n + 1, .ascend => some n
  | n + 1, .declare _ => some (n + 1)
  | 0, .ascend | 0, .declare _ | _, .start | _, .finish => none

/-- A sequence that closes the scopes that it opens and no other, and declares in these only. -/
def Balanced (operations : List Operation) : Prop :=
  operations.foldlM Operation.nest? 0 = some 0

/-- The scopes of `s` are open with `n` more inside of them, and the locals of `s` come first. -/
structure Above (n : Nat) (s t : Scopes) : Prop where
  exists_own : ∃ own : List Scope, own.length = n ∧ t.scopes = own ++ s.scopes
  locals : s.locals <+: t.locals

namespace Above

variable {n m : Nat}

theorem refl (s : Scopes) : Above 0 s s := ⟨⟨[], rfl, rfl⟩, List.prefix_refl _⟩

theorem scopes_eq (h : Above 0 s t) : t.scopes = s.scopes := by
  obtain ⟨own, hown, hscopes⟩ := h.exists_own
  rw [hscopes, List.length_eq_zero_iff.mp hown, List.nil_append]

/-- Nothing but the scopes above is opened, closed or added to. -/
theorem perform (h : Above n s t) (hop : Operation.nest? n op = some m) :
    Above m s (t.perform op) := by
  obtain ⟨⟨own, rfl, hscopes⟩, hlocals⟩ := h
  cases op with
  | start | finish => cases own <;> cases hop
  | descend =>
    cases hop
    exact ⟨⟨[] :: own, rfl, congrArg ([] :: ·) hscopes⟩, hlocals⟩
  | ascend =>
    cases own with
    | nil => cases hop
    | cons scope own =>
      cases hop
      refine ⟨⟨own, rfl, ?_⟩, hlocals⟩
      rw [Scopes.perform, ascend, hscopes, List.cons_append, List.drop_one, List.tail_cons]
  | declare v =>
    cases own with
    | nil => cases hop
    | cons scope own =>
      cases hop
      obtain ⟨-, hsame, -⟩ | ⟨scope', outer, hopen, -, -, hperform⟩ := declare_cases t v
      · rw [hsame]
        exact ⟨⟨scope :: own, rfl, hscopes⟩, hlocals⟩
      · obtain ⟨rfl, rfl⟩ := List.cons.inj (hopen.symm.trans hscopes)
        rw [hperform]
        exact ⟨⟨_ :: own, rfl, rfl⟩, hlocals.trans (List.prefix_append ..)⟩

theorem run (h : Above n s t) (hops : operations.foldlM Operation.nest? n = some m) :
    Above m s (t.run operations) := by
  induction operations generalizing n t with
  | nil =>
    cases hops
    exact h
  | cons op rest ih =>
    rw [List.foldlM_cons] at hops
    obtain ⟨inner, hop, hrest⟩ := Option.bind_eq_some_iff.mp hops
    exact ih (h.perform hop) hrest

end Above

/-! ## Faithfulness -/

/-- What the scopes show can be read off the operations. -/
structure Faithful (operations : List Operation) : Prop where
  depth : (after operations).depth = depthAfter operations
  /-- An entry of an open scope is the slot of a local of its name, the only one in this scope. -/
  indexes : ∀ scope ∈ (after operations).scopes,
    (scope.map Prod.fst).Nodup ∧ ∀ name slot, (name, slot) ∈ scope →
      slot < (after operations).locals.length ∧
        ∃ v, (after operations).local? slot = some v ∧ v.name = name
  /-- Each scope holds the declarations that have been made in it and are still open. -/
  held : ∀ level name slot, slotAt? level name (after operations).scopes = some slot ↔
    ∃ v, v.name = name ∧ IsOpen operations v slot level
  /-- The slots of a function are numbered from zero on in the order of its declarations, whether
  their scopes have been closed since or not. -/
  slots : (declarations operations).map Prod.fst = List.range (after operations).locals.length
  locals : (declarations operations).map Prod.snd = (after operations).locals
  /-- A declaration gets the number after all that have been handed out in the function. -/
  slotFor? : ∀ v slot, (after operations).slotFor? v = some slot →
    slot = (declarations operations).length ∧ slot ∉ (declarations operations).map Prod.fst
  /-- A declaration fails if no scope is open, or if the innermost one has its name. -/
  refuses : ∀ v, (after operations).slotFor? v = none ↔
    depthAfter operations = 0 ∨ ∃ w slot level, w.name = v.name ∧ IsOpen operations w slot level ∧
      depthAfter operations = level + 1
  /-- After whatever comes next, all is as if a failed declaration had not been tried. -/
  unnoticed : ∀ v rest, (after operations).slotFor? v = none →
    after (operations ++ .declare v :: rest) = after (operations ++ rest)
  /-- A name is that of its declaration in the innermost open scope that has one. -/
  find? : ∀ name slot, (after operations).find? name = some slot ↔
    ∃ v level, v.name = name ∧ IsOpen operations v slot level ∧
      ∀ w slot' level', w.name = name → IsOpen operations w slot' level' → level' ≤ level
  unseen : ∀ name, (after operations).find? name = none ↔
    ∀ v slot level, IsOpen operations v slot level → v.name ≠ name
  /-- What is opened and closed again leaves behind nothing but locals. -/
  balanced : ∀ block, Balanced block →
    (∀ name, (after (operations ++ block)).find? name = (after operations).find? name) ∧
      (after operations).locals <+: (after (operations ++ block)).locals

/-- Whatever is done, what the scopes show can be read off it. -/
theorem faithful_after (operations : List Operation) : Faithful operations where
  depth := depth_after operations
  indexes scope hscope := by
    have hindexes := indexes_after operations scope hscope
    refine ⟨hindexes.distinct, fun name slot hentry => ?_⟩
    obtain ⟨v, hv, hname⟩ := hindexes.named name slot hentry
    exact ⟨(List.getElem?_eq_some_iff.mp hv).1, v, hv, hname⟩
  held := slotAt?_after_eq_some_iff operations
  slots := slots_declarations operations
  locals := map_declarations operations
  slotFor? v slot h := by
    rw [length_declarations, slots_declarations, List.mem_range, slotFor?_eq_some h]
    exact ⟨rfl, Nat.lt_irrefl _⟩
  refuses v := by
    rw [slotFor?_eq_none_iff, depth_after]
    simp only [slotAt?_after_eq_some_iff]
    refine or_congr_right ⟨?_, ?_⟩
    · rintro ⟨slot, level, ⟨w, hname, hopen⟩, hdepth⟩
      exact ⟨w, slot, level, hname, hopen, hdepth⟩
    · rintro ⟨w, slot, level, hname, hopen, hdepth⟩
      exact ⟨slot, level, ⟨w, hname, hopen⟩, hdepth⟩
  unnoticed v rest h := by
    have hsame : (after operations).perform (.declare v) = after operations := by
      obtain ⟨-, hsame, -⟩ | ⟨_, _, -, -, hslot, -⟩ := declare_cases (after operations) v
      · exact hsame
      · cases hslot.symm.trans h
    rw [after_append, after_append, run, List.foldl_cons, hsame, run]
  find? name slot := by
    rw [Scopes.find?, findSome?_lookup_eq_some_iff]
    simp only [slotAt?_after_eq_some_iff]
    constructor
    · rintro ⟨level, ⟨v, hname, hopen⟩, hmost⟩
      exact ⟨v, level, hname, hopen, fun w slot' level' hname hopen =>
        hmost level' slot' ⟨w, hname, hopen⟩⟩
    · rintro ⟨v, level, hname, hopen, hmost⟩
      refine ⟨level, ⟨v, hname, hopen⟩, ?_⟩
      rintro level' slot' ⟨w, hname, hopen⟩
      exact hmost w slot' level' hname hopen
  unseen name := by
    rw [Scopes.find?, findSome?_lookup_eq_none_iff]
    simp only [Option.eq_none_iff_forall_ne_some, Ne, slotAt?_after_eq_some_iff, not_exists,
      not_and]
    exact ⟨fun h v slot level hopen hname => h level slot v hname hopen,
      fun h level slot v hname hopen => h v slot level hopen hname⟩
  balanced block h := by
    have habove := (Above.refl (after operations)).run h
    rw [after_append]
    refine ⟨fun name => ?_, habove.locals⟩
    rw [Scopes.find?, Scopes.find?, habove.scopes_eq]

-- The inner scope is closed, but its slot is not given back.
example :
    (after [.start, .declare ⟨"x", none, true⟩, .descend, .declare ⟨"x", none, false⟩, .ascend,
      .declare ⟨"y", none, false⟩]).find? "y" = some 2 := by decide

-- Blocks may follow each other and stand in each other.
example : Balanced [.descend, .declare ⟨"x", none, false⟩, .descend, .ascend, .ascend, .descend,
    .ascend] := rfl

end FrontEnd.Names.Scopes
