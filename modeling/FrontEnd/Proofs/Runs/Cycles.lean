import FrontEnd.Proofs.Runs.Finishing
import Mathlib.Data.List.Perm.Subperm

/-!
# Cycles

A module is in progress while it is on the chain of modules that wait for one another.
So where one in progress is asked for again, it refers to itself through this chain, at
the token that asks for it; and modules that do not wait for themselves are all
finished. That there are only finitely many modules makes the chain end.
-/

namespace FrontEnd.Compilation

open Registry
open Relation (ReflTransGen TransGen)
open Text (Position)

/-- There are texts for no more than finitely many modules, of which the bound is right. -/
def Sources.Bounded (sources : Sources) : Prop :=
  ∃ known : List ModulePath, known.length ≤ sources.bound ∧
    ∀ m source, sources.load m = some source → m ∈ known

theorem Sources.mem_of_load_ofList {texts : List (ModulePath × String)} {m : ModulePath}
    {source : Source} (h : (ofList texts).load m = some source) : m ∈ texts.map Prod.fst := by
  obtain ⟨⟨m', text⟩, hfound, -⟩ := Option.map_eq_some_iff.mp h
  have hpath := List.find?_some hfound
  obtain rfl : m' = m := eq_of_beq hpath
  exact List.mem_map_of_mem (List.mem_reverse.mp (List.mem_of_find?_eq_some hfound))

theorem Sources.bounded_ofList (texts : List (ModulePath × String)) :
    (ofList texts).Bounded :=
  ⟨texts.map Prod.fst, Nat.le_of_eq (List.length_map Prod.fst), fun _ _ => mem_of_load_ofList⟩

/-- The module of a path waits for others. -/
def Registry.Waiting (r : Registry) (path : ModulePath) : Prop :=
  ∃ f, r.search? path = some f ∧ f.state = .inProgress

variable {sources : Sources} {r r' r₁ : Registry} {path other : ModulePath} {f : File}
  {wanted order : List ModulePath} {position : Position} {d : Diagnostic}

theorem Registry.waiting_finish (tokens : Token.Buffer) (m : Module) :
    (r.finish path tokens m).Waiting other ↔ r.Waiting other ∧ other ≠ path := by
  unfold Waiting
  by_cases hother : other = path
  · subst hother
    refine iff_of_false ?_ fun h => h.2 rfl
    rintro ⟨f, hs, hstate⟩
    rw [Registry.finish, search?_update fun f => f.path_finish tokens m] at hs
    obtain ⟨f₀, hs₀, rfl⟩ := Option.map_eq_some_iff.mp hs
    rw [if_pos (by rw [path_of_search? hs₀, BEq.rfl])] at hstate
    cases hstate
  · rw [search?_finish_of_ne hother, and_iff_left hother]

namespace Offers

theorem not_waiting (hoffers : Offers sources path r f r₁) : ¬r.Waiting path := by
  rintro ⟨f', hs, hstate⟩
  cases hoffers with
  | registered found ready =>
    cases found.symm.trans hs
    cases ready.symm.trans hstate
  | loaded unknown load => cases unknown.symm.trans hs

theorem waiting_iff (hoffers : Offers sources path r f r₁) :
    r₁.Waiting other ↔ r.Waiting other := by
  cases hoffers with
  | registered found ready => rfl
  | loaded unknown load =>
    unfold Waiting
    rw [search?_register unknown]
    split
    · next hother =>
      subst hother
      refine iff_of_false ?_ ?_
      · rintro ⟨_, ⟨⟩, ⟨⟩⟩
      · rintro ⟨f, hs, -⟩
        cases unknown.symm.trans hs
    · rfl

theorem waiting_start (hoffers : Offers sources path r f r₁) :
    (r₁.start path).Waiting other ↔ r.Waiting other ∨ other = path := by
  by_cases hother : other = path
  · subst hother
    exact iff_of_true ⟨_, search?_start_self hoffers.search?.1, rfl⟩ (.inr rfl)
  · rw [or_iff_left hother, ← hoffers.waiting_iff]
    unfold Waiting
    rw [search?_start_of_ne hother]

end Offers

/-- After modules have been completed the same modules are waiting as before. -/
theorem Completes.waiting_iff (hcompletes : Completes sources wanted r r' order) :
    r'.Waiting other ↔ r.Waiting other := by
  induction hcompletes with
  | nil => rfl
  | finished _ _ _ ih => exact ih
  | @compiled path _ _ _ r _ _ _ _ _ _ _ hoffers _ _ _ _ _ ihasked ihothers =>
    rw [ihothers, waiting_finish, ihasked, hoffers.waiting_start]
    constructor
    · rintro ⟨h, hother⟩
      exact h.resolve_right hother
    · intro h
      refine ⟨.inl h, ?_⟩
      rintro rfl
      exact hoffers.not_waiting h

theorem Registry.Loaded.paths_subset (hloaded : r.Loaded sources) {known : List ModulePath}
    (hknown : ∀ m source, sources.load m = some source → m ∈ known) : r.paths ⊆ known := by
  intro path hpath
  obtain ⟨f, hf, rfl⟩ := List.mem_map.mp hpath
  exact hknown f.path f.source (hloaded f hf)

theorem refersAt_of_mem {load : ModulePath → Option Source} {source : Source}
    {buffer : Token.Buffer} {items : List Item} {q : Request} (hload : load path = some source)
    (hparsed : source.parse? = some (buffer, items)) (hq : q ∈ references path items) :
    RefersAt load path q (buffer.position q.token) := by
  refine .intro hload hparsed hq ?_
  unfold Source.parse? at hparsed
  split at hparsed
  · cases hparsed
  · split at hparsed
    · cases hparsed
    · next hitems =>
      cases hparsed
      exact Grammar.spelledIn_of_mem_requests hitems (mem_of_mem_asked hq)

/-- A cycle of references: it goes through a module that can be reached from the first one, and is
closed by a token at the given place. -/
def CycleAt (load : ModulePath → Option Source) (path through : ModulePath) (position : Position) :
    Prop :=
  ∃ last q, ReflTransGen (Refers load) path through ∧ ReflTransGen (Refers load) through last ∧
    RefersAt load last q position ∧ q.target = through

/-- Different modules that wait for one another. -/
structure Registry.Chain (r : Registry) (chain : List ModulePath) : Prop where
  nodup : chain.Nodup
  waiting : ∀ m ∈ chain, r.Waiting m

theorem Registry.chain_nil (r : Registry) : r.Chain [] := ⟨.nil, List.forall_mem_nil _⟩

namespace Offers

variable {known chain : List ModulePath}

theorem nodup_cons (hoffers : Offers sources path r f r₁) (h : r.Chain chain) :
    (path :: chain).Nodup :=
  List.nodup_cons.mpr ⟨fun hpath => hoffers.not_waiting (h.waiting path hpath), h.nodup⟩

/-- A chain that a module can still join does not hold all modules that there are. -/
theorem length_lt (hoffers : Offers sources path r f r₁) (hpaths : r.paths ⊆ known)
    (hknown : ∀ m source, sources.load m = some source → m ∈ known) (h : r.Chain chain) :
    chain.length < known.length := by
  have hpath : path ∈ known := by
    cases hoffers with
    | registered found ready => exact hpaths (mem_paths_of_search? found)
    | loaded unknown load => exact hknown _ _ load
  have hsubset : path :: chain ⊆ known := by
    refine List.cons_subset.mpr ⟨hpath, fun m hm => ?_⟩
    obtain ⟨f', hs, -⟩ := h.waiting m hm
    exact hpaths (mem_paths_of_search? hs)
  have hlength := (List.subperm_of_subset (hoffers.nodup_cons h) hsubset).length_le
  rwa [List.length_cons] at hlength

/-- While modules are completed for a module, just this one joins those that are waiting. -/
theorem waiting_completes {r₂ : Registry} (hoffers : Offers sources path r f r₁)
    (hdone : Completes sources wanted (r₁.start path) r₂ order) :
    r₂.Waiting other ↔ r.Waiting other ∨ other = path :=
  hdone.waiting_iff.trans hoffers.waiting_start

theorem chain_cons {r₂ : Registry} (hoffers : Offers sources path r f r₁)
    (hdone : Completes sources wanted (r₁.start path) r₂ order)
    (h : r.Chain chain) : r₂.Chain (path :: chain) := by
  refine ⟨hoffers.nodup_cons h, List.forall_mem_cons.mpr ⟨?_, fun m hm => ?_⟩⟩
  · exact (hoffers.waiting_completes hdone).mpr (.inr rfl)
  · exact (hoffers.waiting_completes hdone).mpr (.inl (h.waiting m hm))

end Offers

/-- A failure that blames a cycle comes from a module that was waiting: the one asked for, or one that
is referred to, either a module that was waiting before or one that has led there itself. -/
theorem Fails.cycle {depth : Nat} (hfails : Fails sources depth path position r d r')
    (hloaded : r.Loaded sources) {known chain : List ModulePath}
    (hknown : ∀ m source, sources.load m = some source → m ∈ known) (hchain : r.Chain chain)
    (hdepth : known.length ≤ depth + chain.length)
    {text : String} (hcause : d.cause = .circularDependency text) :
    (r.Waiting path ∧ path.toText = text ∧ d.position = position) ∨
    ∃ last q, ReflTransGen (Refers sources.load) path last ∧
      RefersAt sources.load last q d.position ∧ q.target.toText = text ∧
      (r.Waiting q.target ∨ ReflTransGen (Refers sources.load) path q.target ∧
        ReflTransGen (Refers sources.load) q.target last) := by
  induction hfails generalizing chain with
  | waiting found inProgress =>
    cases hcause
    exact .inl ⟨⟨_, found, inProgress⟩, rfl, rfl⟩
  | missing unknown load => cases hcause
  | exhausted hoffers =>
    -- The chain would have to hold more modules than there are texts.
    have hlength := hoffers.length_lt (hloaded.paths_subset hknown) hknown hchain
    omega
  | own _ _ _ fault =>
    have hown := fault.isOwn
    rw [hcause] at hown
    exact hown.elim
  | @asked depth path _ r r₁ r₂ _ f buffer items before after q _ d hoffers hparsed heq hdone _ ih =>
    have hq : q ∈ references path items := heq ▸ List.mem_append_right _ List.mem_cons_self
    have hrefers := refersAt_of_mem (hoffers.load_eq hloaded) hparsed hq
    have hwaits : ∀ m, r₂.Waiting m ↔ r.Waiting m ∨ m = path := fun m =>
      hoffers.waiting_completes hdone
    have hloaded₂ := hdone.loaded (hloaded.start hoffers)
    have hdepth₂ : known.length ≤ depth + (path :: chain).length := by
      rw [List.length_cons]
      omega
    right
    rcases ih hloaded₂ (hoffers.chain_cons hdone hchain) hdepth₂ hcause with
      ⟨hw, htext, hposition⟩ | ⟨last, q', hreach, hat, htext, hw⟩
    · -- The module asked for here is the one that was waiting.
      refine ⟨path, q, .refl, hposition ▸ hrefers, htext, ?_⟩
      rcases (hwaits _).mp hw with hw | hself
      · exact .inl hw
      · rw [hself]
        exact .inr ⟨.refl, .refl⟩
    · -- The cycle was closed further on, possibly by asking for `path` again.
      refine ⟨last, q', .head hrefers.refers hreach, hat, htext, ?_⟩
      rcases hw with hw | ⟨hfrom, hto⟩
      · rcases (hwaits _).mp hw with hw | hself
        · exact .inl hw
        · rw [hself]
          exact .inr ⟨.refl, .head hrefers.refers hreach⟩
      · exact .inr ⟨.head hrefers.refers hfrom, hto⟩

theorem Registry.not_waiting_empty : ¬Registry.empty.Waiting path := by
  rintro ⟨f, ⟨⟩, -⟩

theorem Registry.not_hasFinished_empty : ¬Registry.empty.HasFinished path := by
  rintro ⟨m, ⟨⟩⟩

/-- On a new compiler nothing is known beforehand. -/
theorem Completes.settled_empty (hcompletes : Completes sources wanted .empty r order) :
    Settled sources.load (fun _ => False) order :=
  (hcompletes.settled consistent_empty (List.forall_mem_nil _)).mono
    fun _ hm => not_hasFinished_empty hm

/-- On a new compiler all registered modules are compiled, each once. -/
theorem Completes.perm_paths (hcompletes : Completes sources wanted .empty r order) :
    order.Perm (r.files.map File.path) := by
  refine (List.perm_ext_iff_of_nodup (hcompletes.nodup consistent_empty).1
    (hcompletes.grows.distinct distinct_empty)).mpr ?_
  have hiff := fun path =>
    (hcompletes.hasFinished_iff path).trans (or_iff_right not_hasFinished_empty)
  intro path
  rw [← hiff]
  constructor
  · rintro ⟨m, hm⟩
    obtain ⟨f, hs, -⟩ := module?_eq_some.mp hm
    exact mem_paths_of_search? hs
  · intro hpath
    obtain ⟨f, hf, rfl⟩ := List.mem_map.mp hpath
    obtain ⟨-, -, m, -, hm⟩ := hcompletes.exists_module? hf
    exact ⟨m, hm⟩

/-- On a new compiler the detection of cycles is exact. If a compilation fails with a circular
dependency on a module, that module can be reached from the entry and refers to itself, through
others perhaps, the last of which asks for it by the token at the place of the failure. If it
succeeds, the registered modules have been finished in an order in which each comes after all that
it refers to, and none refers to itself. -/
theorem compileEntry_cycles (hbounded : sources.Bounded) (entry : ModulePath) :
    (∀ d r text, compileEntry sources entry .empty = .error d r →
      d.cause = .circularDependency text →
      ∃ m, m.toText = text ∧ CycleAt sources.load entry m d.position) ∧
    ∀ r, compileEntry sources entry .empty = .ok () r →
      (∃ order, Completes sources [entry] .empty r order ∧
        order.Perm (r.files.map File.path) ∧
        ∀ before m after, order = before ++ m :: after →
          ∀ b, Refers sources.load m b → b ∈ before) ∧
      ∀ path ∈ r.files.map File.path, ¬TransGen (Refers sources.load) path path := by
  constructor
  · intro d r text h hcause
    obtain ⟨known, hlength, hknown⟩ := hbounded
    obtain ⟨hw, -⟩ | ⟨last, q, -, hat, htext, hw | ⟨hfrom, hto⟩⟩ :=
      (requireFrom_fails h).cycle (List.forall_mem_nil _) hknown (chain_nil _) hlength hcause
    · exact absurd hw not_waiting_empty
    · exact absurd hw not_waiting_empty
    · exact ⟨q.target, htext, last, q, hfrom, hto, hat, rfl⟩
  · intro r h
    obtain ⟨order, hcompletes⟩ := requireFrom_completes h
    have hsettled := hcompletes.settled_empty
    have hperm := hcompletes.perm_paths
    refine ⟨⟨order, hcompletes, hperm, ?_⟩, fun path hpath =>
      hsettled.acyclic (hperm.mem_iff.mpr hpath)⟩
    rintro before m after rfl b hb
    exact (hsettled.mem_of_refers hb).resolve_left id

/-- `main` imports `a`, which names a global of `b`, and `b` imports `a` in its second line. -/
def circular : Sources :=
  .ofList [(⟨["main"]⟩, "import a\nfn main() \x7b \x7d"),
    (⟨["a"]⟩, "fn f() \x7b x := b.base \x7d"), (⟨["b"]⟩, "pub global base: i32\nimport a")]

theorem compileEntry_circular :
    ∃ r, compileEntry circular ⟨["main"]⟩ .empty =
        .error ⟨.circularDependency "a", ⟨21, "b.eb"⟩⟩ r ∧
      ∃ m, m.toText = "a" ∧ CycleAt circular.load ⟨["main"]⟩ m ⟨21, "b.eb"⟩ := by
  have hfailure : failure? (compileEntry circular ⟨["main"]⟩ .empty) =
      some ⟨.circularDependency "a", ⟨21, "b.eb"⟩⟩ := by
    decide +kernel
  obtain ⟨r, h⟩ := exists_of_failure? hfailure
  exact ⟨r, h, (compileEntry_cycles (Sources.bounded_ofList _) ⟨["main"]⟩).1 _ r _ h rfl⟩

end FrontEnd.Compilation
