import Mathlib.Logic.Relation

/-!
# Depth-first walks

A walk along a graph that visits every place once: each before what follows it, and all
that can be reached from one follower before the next follower. There is only one such
order, and it holds just what can be reached.
-/

namespace FrontEnd.Compilation

open Relation (ReflTransGen)

variable {α : Type} {next : α → List α} {todo todo' seen seen' seen'' : List α} {x : α}

/-- A depth-first walk: the places to do are visited in order, each of them once, and all that follows
a place is visited before the next one. The last list holds all visited places in the order of
their visits, after those that were visited before. -/
inductive Visits (next : α → List α) : List α → List α → List α → Prop
  | nil {seen : List α} : Visits next [] seen seen
  | seen {x : α} {rest seen seen' : List α} (old : x ∈ seen) (others : Visits next rest seen seen') :
    Visits next (x :: rest) seen seen'
  | visit {x : α} {rest seen mid seen' : List α} (new : x ∉ seen)
    (below : Visits next (next x) (seen ++ [x]) mid) (others : Visits next rest mid seen') :
    Visits next (x :: rest) seen seen'

namespace Visits

/-- There is only one depth-first order. -/
theorem unique (h : Visits next todo seen seen') (h' : Visits next todo seen seen'') :
    seen' = seen'' := by
  induction h generalizing seen'' with
  | nil =>
    cases h'
    rfl
  | seen old _ ih =>
    cases h' with
    | seen _ others => exact ih others
    | visit new _ _ => exact absurd old new
  | visit new _ _ ihbelow ihothers =>
    cases h' with
    | seen old _ => exact absurd old new
    | visit _ below others =>
      obtain rfl := ihbelow below
      exact ihothers others

theorem subset (h : Visits next todo seen seen') : seen ⊆ seen' := by
  induction h with
  | nil => exact List.Subset.refl _
  | seen _ _ ih => exact ih
  | visit _ _ _ ihbelow ihothers =>
    exact List.Subset.trans (List.subset_append_left _ _) (List.Subset.trans ihbelow ihothers)

theorem todo_subset (h : Visits next todo seen seen') : todo ⊆ seen' := by
  induction h with
  | nil => exact List.nil_subset _
  | seen old others ih => exact List.cons_subset.mpr ⟨others.subset old, ih⟩
  | visit _ below others _ ih =>
    refine List.cons_subset.mpr ⟨others.subset (below.subset ?_), ih⟩
    exact List.mem_append_right _ (List.mem_singleton_self _)

/-- What follows a visited place has been visited. -/
theorem closed (h : Visits next todo seen seen') :
    ∀ x ∈ seen', x ∈ seen ∨ next x ⊆ seen' := by
  induction h with
  | nil => exact fun x hx => .inl hx
  | seen _ _ ih => exact ih
  | visit _ below others ihbelow ihothers =>
    intro x hx
    rcases ihothers x hx with hmid | hnext
    · rcases ihbelow x hmid with hseen | hnext
      · rcases List.mem_append.mp hseen with hold | hnew
        · exact .inl hold
        · obtain rfl := List.mem_singleton.mp hnew
          exact .inr (List.Subset.trans below.todo_subset others.subset)
      · exact .inr (List.Subset.trans hnext others.subset)
    · exact .inr hnext

/-- Only what can be reached is visited. -/
theorem reached (h : Visits next todo seen seen') :
    ∀ x ∈ seen', x ∈ seen ∨ ∃ t ∈ todo, ReflTransGen (fun a b => b ∈ next a) t x := by
  induction h with
  | nil => exact fun x hx => .inl hx
  | seen _ _ ih =>
    intro x hx
    obtain hold | ⟨t, ht, hreach⟩ := ih x hx
    · exact .inl hold
    · exact .inr ⟨t, .tail _ ht, hreach⟩
  | @visit y _ _ _ _ _ _ _ ihbelow ihothers =>
    intro x hx
    obtain hmid | ⟨t, ht, hreach⟩ := ihothers x hx
    · obtain hseen | ⟨t, ht, hreach⟩ := ihbelow x hmid
      · rcases List.mem_append.mp hseen with hold | hnew
        · exact .inl hold
        · obtain rfl := List.mem_singleton.mp hnew
          exact .inr ⟨x, .head _, .refl⟩
      · exact .inr ⟨y, .head _, .head ht hreach⟩
    · exact .inr ⟨t, .tail _ ht, hreach⟩

/-- A walk from one place visits exactly what can be reached from there. -/
theorem mem_iff (h : Visits next [x] [] seen') {y : α} :
    y ∈ seen' ↔ ReflTransGen (fun a b => b ∈ next a) x y := by
  constructor
  · intro hy
    obtain hnil | ⟨t, ht, hreach⟩ := h.reached y hy
    · cases hnil
    · obtain rfl := List.mem_singleton.mp ht
      exact hreach
  · intro hreach
    induction hreach with
    | refl => exact h.todo_subset (List.mem_singleton_self x)
    | tail _ hstep ih =>
      rcases h.closed _ ih with hnil | hnext
      · cases hnil
      · exact hnext hstep

end Visits

end FrontEnd.Compilation
