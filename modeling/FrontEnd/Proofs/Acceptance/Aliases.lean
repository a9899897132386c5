import FrontEnd.Proofs.Acceptance.Binding
import FrontEnd.Proofs.Runs.Occurrences

/-!
# What leading segments stand for

The imports and submodules of a module make aliases before any body is linked. The
leading segments of a dotted name stand for the module of their alias, or else for the
module of that very path, to which the module then refers. Only the order of imports and
submodules matters here.
-/

namespace FrontEnd

/-- The aliases that the imports and submodules of a module make, the latest first. It can name
itself by its own path. -/
def aliasesOf (own : ModulePath) (items : List Item) : List (ModulePath × ModulePath) :=
  ((items.flatMap (Item.requests own)).map Request.entry).reverse ++ [(own, own)]

/-- The module that leading segments stand for. What is no alias stands for itself. -/
def targetOf (own : ModulePath) (items : List Item) (leading : List String) : ModulePath :=
  (((aliasesOf own items).find? (·.1 == ⟨leading⟩)).map (·.2)).getD ⟨leading⟩

/-- The dotted names in the functions of a module. -/
def mentionedIn (items : List Item) : List DottedName :=
  (functionsOf items).flatMap fun f => Block.dottedNames f.body

/-- The functions of a module ask for the leading segments of their dotted names. -/
theorem flatMap_bodyRequests (items : List Item) :
    items.flatMap Item.bodyRequests = (mentionedIn items).map DottedName.request := by
  induction items with
  | nil => rfl
  | cons i rest ih =>
    rw [List.flatMap_cons, ih]
    cases i with
    | function f => exact List.map_append.symm
    | global | imports | submodule => rfl

/-- A request that does not depend on what is known is made. -/
theorem asked_eq_self {known : List ModulePath} {qs : List Request}
    (h : ∀ q ∈ qs, q.onDemand = false) : asked known qs = qs := by
  induction qs generalizing known with
  | nil => rfl
  | cons q rest ih =>
    rw [List.forall_mem_cons] at h
    rw [asked_cons_of_not_known (by simp [h.1]), ih h.2]

/-- Requests for modules by their own paths are made unless these paths are known. -/
theorem mem_map_target_asked {known : List ModulePath} {qs : List Request} {target : ModulePath}
    (h : ∀ q ∈ qs, q.onDemand = true ∧ q.target = q.handle) :
    target ∈ (asked known qs).map Request.target ↔
      target ∉ known ∧ target ∈ qs.map Request.target := by
  induction qs generalizing known with
  | nil => simp [asked]
  | cons q rest ih =>
    obtain ⟨⟨hdemand, hpath⟩, hrest⟩ := List.forall_mem_cons.mp h
    rw [List.map_cons, List.mem_cons]
    by_cases hknown : q.onDemand = true ∧ q.handle ∈ known
    · rw [asked_cons_of_known hknown, ih hrest]
      refine and_congr_right fun hnew => (or_iff_right ?_).symm
      rintro rfl
      exact hnew (hpath ▸ hknown.2)
    · rw [asked_cons_of_not_known hknown, List.map_cons, List.mem_cons, ih hrest, hpath,
        List.mem_cons]
      have hnew : q.handle ∉ known := fun hmem => hknown ⟨hdemand, hmem⟩
      by_cases htarget : target = q.handle
      · subst htarget
        simp [hnew]
      · simp [htarget]

theorem onDemand_of_mem_requests {own : ModulePath} {items : List Item} :
    ∀ q ∈ items.flatMap (Item.requests own), q.onDemand = false := by
  intro q hq
  obtain ⟨i, -, hq⟩ := List.mem_flatMap.mp hq
  cases i with
  | imports | submodule =>
    obtain rfl := List.mem_singleton.mp hq
    rfl
  | function | global => cases hq

/-- The references of a module: what its imports and submodules ask for, and then what its functions
ask for under further aliases. -/
theorem references_eq (own : ModulePath) (items : List Item) :
    references own items = items.flatMap (Item.requests own) ++
      asked ((aliasesOf own items).map Prod.fst) (items.flatMap Item.bodyRequests) := by
  have hhandles : knownAfter [own] (items.flatMap (Item.requests own)) =
      (aliasesOf own items).map Prod.fst := by
    rw [knownAfter, asked_eq_self onDemand_of_mem_requests, aliasesOf, List.map_append,
      List.map_reverse, List.map_map]
    rfl
  rw [references, requests, asked_append, asked_eq_self onDemand_of_mem_requests, hhandles]

/-- A module refers to what its imports and submodules ask for, and to the leading segments of its
dotted names that are no alias. -/
theorem mem_targets_iff {own : ModulePath} {items : List Item} {target : ModulePath} :
    target ∈ (references own items).map Request.target ↔
      target ∈ (items.flatMap (Item.requests own)).map Request.target ∨
        target ∉ (aliasesOf own items).map Prod.fst ∧
          ∃ d ∈ mentionedIn items, ⟨d.path.dropLast⟩ = target := by
  have hpaths : ∀ q ∈ (mentionedIn items).map DottedName.request,
      q.onDemand = true ∧ q.target = q.handle :=
    List.forall_mem_map.mpr fun d _ => ⟨rfl, rfl⟩
  rw [references_eq, List.map_append, List.mem_append, flatMap_bodyRequests,
    mem_map_target_asked hpaths, List.map_map]
  exact or_congr_right (and_congr_right fun _ => List.mem_map)

/-- What an import selects is public in the module that it asks for. -/
def Item.Selects (declared : ModulePath → List Declaration) : Item → Prop
  | imports i => ∀ n ∈ i.selected, ∃ arity, ⟨(n.2, arity), true⟩ ∈ declared i.target
  | _ => True

/-- The environment is that of a module with these items. -/
structure Environment.Describes (E : Environment) (items : List Item) : Prop where
  declared : E.declared E.own = declarationsOf items
  target : ∀ leading, E.target leading = targetOf E.own items leading
  mentioned : mentionedIn items ⊆ E.mentioned
  requested : ∀ q ∈ items.flatMap (Item.requests E.own), E.wanted q.target
  wanted : ∀ d ∈ E.mentioned, ⟨d.path.dropLast⟩ ∉ (aliasesOf E.own items).map Prod.fst →
    E.wanted ⟨d.path.dropLast⟩

section Keeps

variable {items items' : List Item}

theorem declarationsOf_keeps {α : Type} {view : Block → α}
    (h : List.Forall₂ (Item.Keeps view) items items') :
    declarationsOf items' = declarationsOf items := by
  induction h with
  | nil => rfl
  | cons hi _ ih =>
    rw [declarationsOf, declarationsOf, List.filterMap_cons, List.filterMap_cons]
    rw [declarationsOf, declarationsOf] at ih
    rw [ih]
    cases hi <;> rfl

theorem requests_keeps {α : Type} {view : Block → α}
    (h : List.Forall₂ (Item.Keeps view) items items') (own : ModulePath) :
    items'.flatMap (Item.requests own) = items.flatMap (Item.requests own) := by
  induction h with
  | nil => rfl
  | cons hi _ ih =>
    rw [List.flatMap_cons, List.flatMap_cons, ih]
    cases hi <;> rfl

theorem mentionedIn_keeps (h : List.Forall₂ (Item.Keeps Block.dottedNames) items items') :
    mentionedIn items' = mentionedIn items := by
  have hmap := congrArg (List.flatMap Prod.snd) (map_functionsOf_eq h)
  rwa [List.flatMap_map, List.flatMap_map] at hmap

theorem selects_keeps {α : Type} {view : Block → α}
    (h : List.Forall₂ (Item.Keeps view) items items') (declared : ModulePath → List Declaration) :
    (∀ i ∈ items', i.Selects declared) ↔ ∀ i ∈ items, i.Selects declared := by
  induction h with
  | nil => rfl
  | cons hi _ ih =>
    rw [List.forall_mem_cons, List.forall_mem_cons, ih]
    cases hi <;> rfl

/-- What the environment of a module is does not depend on what else the bodies hold than dotted
names. -/
theorem Environment.Describes.keeps {E : Environment} (hE : E.Describes items)
    (h : List.Forall₂ (Item.Keeps Block.dottedNames) items items') : E.Describes items' := by
  have haliases : aliasesOf E.own items' = aliasesOf E.own items := by
    rw [aliasesOf, aliasesOf, requests_keeps h]
  refine ⟨?_, fun leading => ?_, ?_, ?_, ?_⟩
  · rw [declarationsOf_keeps h]
    exact hE.declared
  · rw [targetOf, haliases]
    exact hE.target leading
  · rw [mentionedIn_keeps h]
    exact hE.mentioned
  · rw [requests_keeps h]
    exact hE.requested
  · rw [haliases]
    exact hE.wanted

end Keeps

end FrontEnd
