import FrontEnd.Configuration
import FrontEnd.Proofs.References.Spelling
import Mathlib.Data.List.Basic

/-!
# Names in tokens

Every segment of a name that has been scanned is a name without dots, and so could be
that of a module: a dot belongs to a name only before the start of a further one.
-/

namespace FrontEnd

/-- All segments are names without dots. -/
def AreNames (segments : List String) : Prop := ∀ s ∈ segments, isModuleName s.toList = true

instance (segments : List String) : Decidable (AreNames segments) :=
  inferInstanceAs (Decidable (∀ s ∈ segments, isModuleName s.toList = true))

namespace Token

theorem splitOn_dot_cons_of_ne {c : Char} (h : c ≠ '.') (cs : List Char) :
    (c :: cs).splitOn '.' = (cs.splitOn '.').modifyHead (c :: ·) := by
  rw [List.splitOn_eq_splitOnP, List.splitOnP_cons_eq_if_modifyHead, if_neg (by simpa using h),
    List.splitOn_eq_splitOnP]

theorem splitOn_dot_cons (cs : List Char) : ('.' :: cs).splitOn '.' = [] :: cs.splitOn '.' := by
  rw [List.splitOn_eq_splitOnP, List.splitOnP_cons_eq_if_modifyHead, if_pos (by simp),
    List.splitOn_eq_splitOnP]

theorem ne_dot_of_isNamePart {c : Char} (h : isNamePart c = true) : c ≠ '.' := by
  rintro rfl
  exact absurd h (by decide)

theorem isNamePart_of_isNameStart {c : Char} (h : isNameStart c = true) : isNamePart c = true := by
  rw [isNamePart, h, Bool.true_or]

/-- What a name goes on with: the rest of its segment, and then further segments. -/
theorem exists_splitOn_take_nameLength (seen : Nat) (cs : List Char) :
    ∃ first others, (cs.take (nameLength seen cs - seen)).splitOn '.' = first :: others ∧
      first.all isNamePart = true ∧ (∀ s ∈ others, isModuleName s = true) ∧
      ∀ c, cs.head? = some c → isNamePart c = true → first.head? = some c := by
  induction cs generalizing seen with
  | nil => exact ⟨[], [], by simp [nameLength], rfl, nofun, nofun⟩
  | cons c cs ih =>
    obtain ⟨first, others, hsplit, hfirst, hothers, hhead⟩ := ih (seen + 1)
    have hle := le_nameLength (seen + 1) cs
    have htake : (c :: cs).take (nameLength (seen + 1) cs - seen) =
        c :: cs.take (nameLength (seen + 1) cs - (seen + 1)) := by
      rw [show nameLength (seen + 1) cs - seen = nameLength (seen + 1) cs - (seen + 1) + 1 by omega,
        List.take_succ_cons]
    rw [nameLength]
    split
    · next hpart =>
      refine ⟨c :: first, others, ?_, ?_, hothers, ?_⟩
      · rw [htake, splitOn_dot_cons_of_ne (ne_dot_of_isNamePart hpart), hsplit]
        rfl
      · rw [List.all_cons, hpart, hfirst, Bool.true_and]
      · rintro _ ⟨⟩ -
        rfl
    · split
      · next hpart hdot =>
        rw [Bool.and_eq_true, beq_iff_eq] at hdot
        obtain ⟨rfl, hstart⟩ := hdot
        refine ⟨[], first :: others, ?_, rfl, ?_, ?_⟩
        · rw [htake, splitOn_dot_cons, hsplit]
        · -- The segment after the dot starts as a name does.
          refine List.forall_mem_cons.mpr ⟨?_, hothers⟩
          cases cs with
          | nil => cases hstart
          | cons d ds =>
            have hd : first.head? = some d := hhead d rfl (isNamePart_of_isNameStart hstart)
            cases first with
            | nil => cases hd
            | cons e es =>
              cases hd
              rw [List.all_cons, Bool.and_eq_true] at hfirst
              rw [isModuleName, hfirst.2, Bool.and_true]
              exact hstart
        · rintro _ ⟨⟩ hc
          exact absurd hc hpart
      · next hpart _ =>
        refine ⟨[], [], by simp, rfl, nofun, ?_⟩
        rintro _ ⟨⟩ hc
        exact absurd hc hpart

/-- The segments of a name are names without dots. -/
theorem areNames_segments {c : Char} {cs : List Char} {n : Nat}
    (h : Pattern.length? .name (c :: cs) = some n) : AreNames (segments ((c :: cs).take n)) := by
  rw [Pattern.length?] at h
  split at h
  · next hstart =>
    cases h
    obtain ⟨first, others, hsplit, hfirst, hothers, -⟩ := exists_splitOn_take_nameLength 1 cs
    have hle := le_nameLength 1 cs
    have hpart := isNamePart_of_isNameStart hstart
    have hname : isModuleName (c :: first) = true := by rw [isModuleName, hstart, hfirst]; rfl
    have hall : ∀ s ∈ (c :: first) :: others, isModuleName s = true :=
      List.forall_mem_cons.mpr ⟨hname, hothers⟩
    intro s hs
    obtain ⟨k, hk⟩ := Nat.exists_eq_add_of_le' hle
    rw [segments, hk, List.take_succ_cons, splitOn_dot_cons_of_ne (ne_dot_of_isNamePart hpart)] at hs
    rw [hk, Nat.add_sub_cancel] at hsplit
    rw [hsplit] at hs
    obtain ⟨l, hl, rfl⟩ := List.mem_map.mp hs
    rw [String.toList_ofList]
    exact hall l hl
  · cases h

/-- A lexeme that is a name is cut where a name ends. -/
def Lexeme.IsCut (l : Lexeme) : Prop :=
  l.pattern = .name → AreNames (segments l.text)

theorem isCut_lexemesFrom (skip : Nat) (cs : List Char) {done : List Lexeme}
    (h : ∀ l ∈ done, l.IsCut) : ∀ l ∈ (lexemesFrom done skip cs).1, l.IsCut := by
  induction cs generalizing skip done with
  | nil =>
    rw [lexemesFrom]
    exact fun l hl => h l (List.mem_reverse.mp hl)
  | cons c cs ih =>
    cases skip with
    | succ skip =>
      rw [lexemesFrom]
      exact ih skip h
    | zero =>
      rw [lexemesFrom]
      split
      · exact fun l hl => h l (List.mem_reverse.mp hl)
      · next p n hfirst =>
        refine ih _ (List.forall_mem_cons.mpr ⟨?_, h⟩)
        obtain ⟨q, -, hq⟩ := List.exists_of_findSome?_eq_some hfirst
        obtain ⟨m, hm, heq⟩ := Option.map_eq_some_iff.mp hq
        cases heq
        rintro rfl
        exact areNames_segments hm

/-- The path of a name is cut from its text, and its segments are names without dots. -/
def HasNames (t : Token) : Prop :=
  ∀ path, t.shape = .identifier path →
    AreNames path ∧ path = segments t.text.toList

theorem hasNames_assemble {file : String} {ls : List Lexeme} (hls : ∀ l ∈ ls, l.IsCut)
    {done done' : List Token} {offset offset' : Nat}
    (h : assemble file done offset ls = .ok (done', offset')) (hdone : ∀ t ∈ done, t.HasNames) :
    ∀ t ∈ done', t.HasNames := by
  induction ls generalizing done offset with
  | nil =>
    cases h
    exact hdone
  | cons l ls ih =>
    rw [List.forall_mem_cons] at hls
    rw [assemble] at h
    split at h
    · cases h
    · exact ih hls.2 h hdone
    · next shape hshape =>
      refine ih hls.2 h (List.forall_mem_cons.mpr ⟨?_, hdone⟩)
      rintro path rfl
      rw [Lexeme.shape?] at hshape
      split at hshape
      · next hname =>
        rw [shapeOfName] at hshape
        split at hshape
        · cases hshape
        · cases hshape
          rw [String.toList_ofList]
          exact ⟨hls.1 hname, rfl⟩
      · split at hshape <;> cases hshape
      · cases hshape
      · cases hshape
      · cases hshape
      · split at hshape <;> cases hshape
      · cases hshape

theorem hasNames_scan {file text : String} {buffer : Buffer}
    (h : Buffer.scan file text = .ok buffer) : ∀ t ∈ buffer.tokens, t.HasNames := by
  rw [Buffer.scan] at h
  dsimp only at h
  split at h
  · cases h
  · next done offset hassemble =>
    have hcut : ∀ l ∈ (lexemes text.toList).1, l.IsCut :=
      isCut_lexemesFrom 0 text.toList (List.forall_mem_nil _)
    have hdone := hasNames_assemble hcut hassemble nofun
    split at h
    · cases h
    · cases h
      intro t ht
      rcases List.mem_cons.mp (List.mem_reverse.mp ht) with rfl | ht
      · exact nofun
      · exact hdone t ht

theorem Spells.areNames {t : Token} {path : List String} (h : t.Spells path)
    (ht : t.HasNames) : AreNames path := by
  cases h with
  | path h => exact (ht path h).1
  | @simple path h hsimple =>
    -- The only segment is the whole text.
    obtain ⟨hnames, heq⟩ := ht path h
    rw [segments] at heq
    have hone : (t.text.toList.splitOn '.').length = 1 := by
      rw [heq, List.length_map] at hsimple
      exact hsimple
    obtain ⟨l, hl⟩ := List.length_eq_one_iff.mp hone
    have hjoin : ['.'].intercalate (t.text.toList.splitOn '.') = t.text.toList :=
      List.intercalate_splitOn '.'
    rw [hl, List.intercalate_singleton] at hjoin
    rw [hl, List.map_singleton, hjoin, String.ofList_toList] at heq
    rwa [← heq]

end Token

end FrontEnd
