import FrontEnd.Token.Scan

/-!
# Where tokens stand

Lexemes make up the text, so each of them starts at a character of it or at its end. The
same holds for the tokens, and for what a text cannot be cut at. There are no more of them
than characters, but for the token that ends a file.
-/

namespace FrontEnd

open Text (Position byteLength byteLength_append byteLength_nil)

theorem Text.byteLength_eq (cs : List Char) : byteLength cs = (String.ofList cs).utf8ByteSize := by
  induction cs with
  | nil => rfl
  | cons c cs ih =>
    rw [byteLength_cons, ih, String.ofList_cons, String.utf8ByteSize_append,
      String.utf8ByteSize_singleton]

theorem Text.length_le_byteLength (cs : List Char) : cs.length ≤ byteLength cs := by
  induction cs with
  | nil => exact Nat.le_refl 0
  | cons c cs ih =>
    have hpos := c.utf8Size_pos
    rw [byteLength_cons, List.length_cons]
    omega

/-- A position in a file of a given name and text: the offset reaches no further than the text, and
cuts no character in two. -/
structure Text.Position.IsIn (p : Position) (name text : String) : Prop where
  file : p.file = name
  le : p.offset ≤ text.utf8ByteSize
  boundary : String.Pos.Raw.IsValid text ⟨p.offset⟩

theorem Text.Position.isIn_of_toList {text : String} {before after : List Char}
    (h : text.toList = before ++ after) (name : String) :
    Position.IsIn ⟨byteLength before, name⟩ name text := by
  have htext : text = String.ofList before ++ String.ofList after := by
    rw [← String.ofList_append, ← h, String.ofList_toList]
  refine ⟨rfl, ?_, ?_⟩
  · rw [htext, String.utf8ByteSize_append, ← byteLength_eq]
    exact Nat.le_add_right _ _
  · refine String.Pos.Raw.isValid_iff_exists_append.mpr ⟨_, _, htext, ?_⟩
    rw [byteLength_eq]
    rfl

namespace Token

variable {file text : String} {done : List Token} {ls : List Lexeme} {before rest : List Char}

/-- The token starts in the text. -/
def StartsIn (text file : String) (t : Token) : Prop :=
  Position.IsIn ⟨t.span.start, file⟩ file text

/-- Lexemes that go on a text after what has been read lead to tokens that start in it, up to the
end of the lexemes, or to a failure at the start of one. -/
theorem startsIn_assemble (file : String)
    (htext : text.toList = before ++ (ls.flatMap Lexeme.text ++ rest))
    (hdone : ∀ t ∈ done, t.StartsIn text file) :
    match assemble file done (byteLength before) ls with
    | .error d => d.position.IsIn file text
    | .ok (done', offset) => (∀ t ∈ done', t.StartsIn text file) ∧
        offset = byteLength (before ++ ls.flatMap Lexeme.text) := by
  induction ls generalizing done before with
  | nil => exact ⟨hdone, by rw [List.flatMap_nil, List.append_nil]⟩
  | cons l ls ih =>
    have hstart := Position.isIn_of_toList htext file
    have hstop : byteLength before + byteLength l.text = byteLength (before ++ l.text) :=
      (byteLength_append before l.text).symm
    rw [List.flatMap_cons, List.append_assoc, ← List.append_assoc] at htext
    rw [List.flatMap_cons, ← List.append_assoc, assemble, hstop]
    cases l.shape? done with
    | error cause => exact hstart
    | ok shape =>
      cases shape with
      | none => exact ih htext hdone
      | some shape => exact ih htext (List.forall_mem_cons.mpr ⟨hstart, hdone⟩)

/-- All tokens of a file start in its text. What cannot be cut into tokens fails in it. -/
theorem startsIn_scan (file text : String) :
    match Buffer.scan file text with
    | .error d => d.position.IsIn file text
    | .ok buffer => buffer.file = file ∧ ∀ t ∈ buffer.tokens, t.StartsIn text file := by
  have htext : text.toList = [] ++ ((lexemes text.toList).1.flatMap Lexeme.text ++
      (lexemes text.toList).2) := (flatMap_lexemes text.toList).symm
  have hassemble := startsIn_assemble file htext (List.forall_mem_nil _)
  unfold Buffer.scan
  rw [byteLength_nil] at hassemble
  dsimp only
  cases hrun : assemble file [] 0 (lexemes text.toList).1 with
  | error d =>
    rw [hrun] at hassemble
    exact hassemble
  | ok result =>
    obtain ⟨done, offset⟩ := result
    rw [hrun, List.nil_append] at hassemble
    obtain ⟨hdone, rfl⟩ := hassemble
    have hend := Position.isIn_of_toList (flatMap_lexemes text.toList).symm file
    dsimp only
    cases (lexemes text.toList).2 with
    | cons c rest => exact hend
    | nil =>
      refine ⟨rfl, fun t ht => ?_⟩
      rcases List.mem_cons.mp (List.mem_reverse.mp ht) with rfl | ht
      · exact hend
      · exact hdone t ht

/-- Whatever an index stands for, it is at a place in the text. -/
theorem Buffer.position_isIn {buffer : Buffer} (h : Buffer.scan file text = .ok buffer)
    (index : Nat) : (buffer.position index).IsIn file text := by
  have hscan := startsIn_scan file text
  rw [h] at hscan
  obtain ⟨hfile, htokens⟩ := hscan
  unfold Buffer.position
  rw [hfile]
  cases ht : buffer.tokens[index]? with
  | some t => exact htokens t (List.mem_of_getElem? ht)
  | none =>
    have htext : text.toList = [] ++ text.toList := rfl
    exact Position.isIn_of_toList htext file

/-- Every lexeme starts at a character of its own. -/
theorem length_lexemesFrom_le (done : List Lexeme) (skip : Nat) (cs : List Char) :
    (lexemesFrom done skip cs).1.length ≤ done.length + cs.length := by
  induction cs generalizing done skip with
  | nil =>
    rw [lexemesFrom, List.length_reverse]
    exact Nat.le_add_right _ _
  | cons c cs ih =>
    rw [List.length_cons]
    cases skip with
    | succ skip =>
      have hle := ih done skip
      rw [lexemesFrom]
      omega
    | zero =>
      rw [lexemesFrom]
      split
      · rw [List.length_reverse]
        omega
      · next p n _ =>
        have hle := ih (⟨p, (c :: cs).take n⟩ :: done) (n - 1)
        rw [List.length_cons] at hle
        omega

theorem length_assemble_le {offset stop : Nat} {done' : List Token}
    (h : assemble file done offset ls = .ok (done', stop)) :
    done'.length ≤ done.length + ls.length := by
  induction ls generalizing done offset with
  | nil =>
    cases h
    exact Nat.le_add_right _ _
  | cons l ls ih =>
    rw [assemble] at h
    rw [List.length_cons]
    split at h
    · cases h
    · have hle := ih h
      omega
    · have hle := ih h
      rw [List.length_cons] at hle
      omega

/-- A file has at most as many tokens as bytes, and the one that ends it. -/
theorem Buffer.length_scan_le {buffer : Buffer} (h : Buffer.scan file text = .ok buffer) :
    buffer.tokens.length ≤ text.utf8ByteSize + 1 := by
  unfold Buffer.scan at h
  dsimp only at h
  split at h
  · cases h
  · next done offset hassemble =>
    split at h
    · cases h
    · cases h
      have htokens := length_assemble_le hassemble
      have hlexemes := length_lexemesFrom_le [] 0 text.toList
      have hbytes := Text.length_le_byteLength text.toList
      rw [Text.byteLength_eq, String.ofList_toList] at hbytes
      rw [← lexemes] at hlexemes
      rw [List.length_nil] at htokens hlexemes
      rw [List.length_reverse, List.length_cons]
      omega

end Token

end FrontEnd
