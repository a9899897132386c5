import FrontEnd.Proofs.Linking.Declarations
import FrontEnd.Proofs.Token.Names
import Mathlib.Data.List.Nodup

/-!
# Unique names are unique

The unique name of an item is read back by cutting it at its dots. What comes last tells
functions and globals apart, since a number does not start as a name does; what comes
before the name is the path of the module.
-/

namespace FrontEnd

/-- The unique name of a function or a global, if it has been set. -/
def Item.uniqueName? : Item → Option (Option String)
  | function f => some f.uniqueName
  | global g => some g.uniqueName
  | _ => none

namespace Names

/-- A function or a global of a module. -/
inductive ItemRef
  | function (r : FunctionRef)
  | global (r : GlobalRef)
  deriving DecidableEq, Repr

namespace ItemRef

/-- The module that declares the item. -/
def module : ItemRef → ModulePath
  | function r => r.module
  | global r => r.module

/-- What tells the item apart from the others of its module. -/
def signature : ItemRef → String × Option Nat
  | function r => (r.name, some r.arity)
  | global r => (r.name, none)

/-- The name that tells the item apart from all others. -/
def uniqueName : ItemRef → String
  | function r => r.uniqueName
  | global r => r.uniqueName

/-- What comes after the path of the module in the unique name. -/
def suffix : ItemRef → List String
  | function r => [r.name, toString r.arity, toString r.index]
  | global r => [r.name]

end ItemRef

end Names

open Names (ItemRef)

/-- The segments of a path as they stand in a text: that of the empty path is cut to one. -/
def ModulePath.written (m : ModulePath) : List String :=
  if m.segments = [] then [""] else m.segments

/-- Segments are read back from a text that joins them by a character of none of them. -/
theorem splitOn_intercalate {c : Char} {mark : String} (hmark : mark.toList = [c])
    {segments : List String} (hne : segments ≠ []) (h : ∀ s ∈ segments, c ∉ s.toList) :
    (mark.intercalate segments).toList.splitOn c = segments.map String.toList := by
  rw [String.toList_intercalate, hmark]
  refine List.splitOn_intercalate _ ?_ ?_
  · intro l hl
    obtain ⟨s, hs, rfl⟩ := List.mem_map.mp hl
    exact h s hs
  · simpa using hne

theorem splitDots_joinDots {segments : List String} (hne : segments ≠ [])
    (h : ∀ s ∈ segments, '.' ∉ s.toList) : splitDots (joinDots segments) = segments := by
  rw [splitDots, joinDots, splitOn_intercalate rfl hne h, List.map_map]
  exact (List.map_congr_left fun s _ => String.ofList_toList).trans (List.map_id segments)

theorem joinDots_append {segments segments' : List String} (h : segments ≠ [])
    (h' : segments' ≠ []) :
    joinDots (segments ++ segments') = joinDots segments ++ "." ++ joinDots segments' :=
  String.intercalate_append_of_ne_nil h h'

namespace ModulePath

theorem written_ne_nil (m : ModulePath) : m.written ≠ [] := by
  unfold written
  split
  · nofun
  · assumption

theorem joinDots_written (m : ModulePath) : joinDots m.written = m.toText := by
  unfold written
  split
  · next h =>
    rw [toText, h]
    rfl
  · rfl

theorem notMem_of_isModuleName {c : Char} (hc : Token.isNamePart c = false) {s : String}
    (h : isModuleName s.toList = true) : c ∉ s.toList := by
  intro hmem
  unfold isModuleName at h
  split at h
  · next hs =>
    rw [hs] at hmem
    cases hmem
  · next c' cs hs =>
    rw [Bool.and_eq_true, List.all_eq_true] at h
    rw [hs] at hmem
    have hpart : Token.isNamePart c = true := by
      rcases List.mem_cons.mp hmem with rfl | hmem
      · exact Token.isNamePart_of_isNameStart h.1
      · exact h.2 c hmem
    rw [hc] at hpart
    cases hpart

theorem notMem_written {c : Char} (hc : Token.isNamePart c = false) {m : ModulePath}
    (h : AreNames m.segments) : ∀ s ∈ m.written, c ∉ s.toList := by
  unfold written
  split
  · exact List.forall_mem_singleton.mpr (by simp)
  · exact fun s hs => notMem_of_isModuleName hc (h s hs)

theorem written_injOn {m m' : ModulePath} (h : AreNames m.segments) (h' : AreNames m'.segments)
    (heq : m.written = m'.written) : m = m' := by
  obtain ⟨segments⟩ := m
  obtain ⟨segments'⟩ := m'
  -- The empty text is no name, so only the empty path is written so.
  have hempty : ∀ {l : List String}, AreNames l → l ≠ [""] := by
    rintro _ hl rfl
    exact absurd (hl "" (List.mem_singleton_self _)) (by decide)
  unfold written at heq
  dsimp only at h h' heq
  split at heq <;> split at heq
  · next hs hs' => rw [hs, hs']
  · exact absurd heq.symm (hempty h')
  · exact absurd heq (hempty h)
  · rw [heq]

end ModulePath

theorem isDigit_of_mem_toString {n : Nat} {c : Char} (h : c ∈ (toString n).toList) :
    c.isDigit = true := by
  change c ∈ n.repr.toList at h
  rw [Nat.toList_repr] at h
  exact Nat.isDigit_of_mem_toDigits (by omega) (by omega) h

theorem dot_notMem_toString (n : Nat) : '.' ∉ (toString n).toList := fun h =>
  absurd (isDigit_of_mem_toString h) (by decide)

theorem toString_injective {m n : Nat} (h : toString m = toString n) : m = n := by
  have hdigits := congrArg String.toList h
  change m.repr.toList = n.repr.toList at hdigits
  rw [Nat.toList_repr, Nat.toList_repr] at hdigits
  rw [← Nat.ofDigitChars_ten_toDigits (n := m), hdigits, Nat.ofDigitChars_ten_toDigits]

theorem Token.not_isDigit_of_isNameStart {c : Char} (h : isNameStart c = true) :
    c.isDigit = false := by
  simp only [isNameStart, Char.isDigit, Bool.or_eq_true, Bool.and_eq_true, decide_eq_true_eq,
    beq_iff_eq, Char.le_def, UInt32.le_iff_toNat_le, Bool.and_eq_false_iff,
    decide_eq_false_iff_not] at h ⊢
  rcases h with (⟨h, -⟩ | ⟨h, -⟩) | rfl
  · right
    intro hc
    exact absurd (Nat.le_trans h hc) (by decide)
  · right
    intro hc
    exact absurd (Nat.le_trans h hc) (by decide)
  · decide

/-- A number is no name. -/
theorem not_isModuleName_toString (n : Nat) : isModuleName (toString n).toList = false := by
  unfold isModuleName
  split
  · rfl
  · next c cs hs =>
    cases hstart : Token.isNameStart c with
    | false => rfl
    | true =>
      have hdigit := isDigit_of_mem_toString (n := n) (c := c) (by rw [hs]; exact .head _)
      rw [Token.not_isDigit_of_isNameStart hstart] at hdigit
      cases hdigit

namespace Names.ItemRef

/-- The name of the item is a name, and so are the segments of its module's path. -/
structure IsNamed (r : ItemRef) : Prop where
  module : AreNames r.module.segments
  name : isModuleName r.signature.1.toList = true

theorem suffix_ne_nil (r : ItemRef) : r.suffix ≠ [] := by
  cases r <;> nofun

theorem uniqueName_eq (r : ItemRef) : r.uniqueName = joinDots (r.module.written ++ r.suffix) := by
  rw [joinDots_append r.module.written_ne_nil r.suffix_ne_nil, ModulePath.joinDots_written]
  cases r with
  | global r =>
    change r.module.toText ++ "." ++ r.name = _
    rw [suffix, joinDots, String.intercalate_singleton]
    rfl
  | function r =>
    change r.module.toText ++ "." ++ r.name ++ "." ++ toString r.arity ++ "." ++ toString r.index = _
    rw [suffix, joinDots, String.intercalate_cons_cons, String.intercalate_cons_cons,
      String.intercalate_singleton]
    simp only [String.append_assoc]
    rfl

theorem dot_notMem_suffix {r : ItemRef} (h : r.IsNamed) : ∀ s ∈ r.suffix, '.' ∉ s.toList := by
  have hname := ModulePath.notMem_of_isModuleName (by decide : Token.isNamePart '.' = false) h.name
  cases r with
  | global r => exact List.forall_mem_singleton.mpr hname
  | function r =>
    exact List.forall_mem_cons.mpr ⟨hname, List.forall_mem_cons.mpr
      ⟨dot_notMem_toString _, List.forall_mem_singleton.mpr (dot_notMem_toString _)⟩⟩

/-- Cutting a unique name at its dots gives back what it was made of. -/
theorem splitDots_uniqueName {r : ItemRef} (h : r.IsNamed) :
    splitDots r.uniqueName = r.module.written ++ r.suffix := by
  rw [uniqueName_eq, splitDots_joinDots]
  · simpa using fun _ => r.suffix_ne_nil
  · exact List.forall_mem_append.mpr
      ⟨ModulePath.notMem_written (by decide) h.module, dot_notMem_suffix h⟩

/-- The last part of a function's unique name is a number, and so differs from that of a global. -/
theorem uniqueName_function_ne_global {r : FunctionRef} {r' : GlobalRef}
    (h : (function r).IsNamed) (h' : (global r').IsNamed) : r.uniqueName ≠ r'.uniqueName := by
  intro heq
  have hsplit := congrArg splitDots (show (function r).uniqueName = (global r').uniqueName from heq)
  rw [splitDots_uniqueName h, splitDots_uniqueName h'] at hsplit
  have hlast := congrArg List.getLast? hsplit
  rw [List.getLast?_append_of_ne_nil _ (suffix_ne_nil _),
    List.getLast?_append_of_ne_nil _ (suffix_ne_nil _)] at hlast
  have hname : toString r.index = r'.name := Option.some.inj hlast
  have hnumber := not_isModuleName_toString r.index
  rw [hname] at hnumber
  exact absurd h'.name (by rw [signature, hnumber]; nofun)

/-- Items with the same unique name are the same. -/
theorem uniqueName_injOn {r r' : ItemRef} (h : r.IsNamed) (h' : r'.IsNamed)
    (heq : r.uniqueName = r'.uniqueName) : r = r' := by
  have hsplit := congrArg splitDots heq
  rw [splitDots_uniqueName h, splitDots_uniqueName h'] at hsplit
  cases r with
  | function r =>
    cases r' with
    | global r' => exact absurd heq (uniqueName_function_ne_global h h')
    | function r' =>
      obtain ⟨hmodule, hsuffix⟩ := List.append_inj' hsplit rfl
      have hm := ModulePath.written_injOn h.module h'.module hmodule
      obtain ⟨module, name, arity, index⟩ := r
      obtain ⟨module', name', arity', index'⟩ := r'
      simp only [suffix, List.cons.injEq, and_true] at hsuffix
      obtain ⟨rfl, harity, hindex⟩ := hsuffix
      obtain rfl := toString_injective harity
      obtain rfl := toString_injective hindex
      cases hm
      rfl
  | global r =>
    cases r' with
    | function r' => exact absurd heq.symm (uniqueName_function_ne_global h' h)
    | global r' =>
      obtain ⟨hmodule, hsuffix⟩ := List.append_inj' hsplit rfl
      have hm := ModulePath.written_injOn h.module h'.module hmodule
      obtain ⟨module, name⟩ := r
      obtain ⟨module', name'⟩ := r'
      cases hsuffix
      cases hm
      rfl

end Names.ItemRef

/-- The unique names of linked items are those of their functions and globals, of which no two have
the same signature. -/
theorem exists_refs_of_linksTo {own : ModulePath} {items items' : List Item}
    (h : List.Forall₂ (Item.LinksTo own) items items') :
    ∃ refs : List ItemRef, items'.filterMap Item.uniqueName? = refs.map (some ·.uniqueName) ∧
      refs.map ItemRef.signature = items.filterMap Item.signature? ∧ ∀ r ∈ refs, r.module = own := by
  induction h with
  | nil => exact ⟨[], rfl, rfl, nofun⟩
  | cons hi _ ih =>
    obtain ⟨refs, hnames, hsignatures, hmodule⟩ := ih
    cases hi with
    | @function f index =>
      exact ⟨.function ⟨own, f.name, f.arity, index⟩ :: refs, congrArg (List.cons _) hnames,
        congrArg (List.cons _) hsignatures, List.forall_mem_cons.mpr ⟨rfl, hmodule⟩⟩
    | global g =>
      exact ⟨.global ⟨own, g.name⟩ :: refs, congrArg (List.cons _) hnames,
        congrArg (List.cons _) hsignatures, List.forall_mem_cons.mpr ⟨rfl, hmodule⟩⟩
    | imports | submodule =>
      exact ⟨refs, hnames, hsignatures, hmodule⟩

end FrontEnd
