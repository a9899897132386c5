import FrontEnd.Proofs.Token.Places
import FrontEnd.Text.Line
import Mathlib.Data.List.TakeWhile

/-!
# Lines and byte offsets

A text has lines in one way only, and every byte of it lies in one of them. The line that is
found for an offset is that line, with a column that leads back to the offset; offsets past
the end are taken for the end of the last line.
-/

namespace FrontEnd.Text

/-- The lines of a text: each ends with its only line feed, but the last one may go without. -/
inductive IsLines : List Char → List (List Char) → Prop
  | nil : IsLines [] []
  | last {line : List Char} (hne : line ≠ []) (hline : '\n' ∉ line) : IsLines line [line]
  | cons {line rest : List Char} {ls : List (List Char)} (hline : '\n' ∉ line)
    (hrest : IsLines rest ls) : IsLines (line ++ '\n' :: rest) ((line ++ ['\n']) :: ls)

/-- The number of line feeds among the bytes before an offset. -/
def lineFeedsBefore (text : String) (offset : Nat) : Nat :=
  (text.toUTF8.data.toList.take offset).count 10

/-- What stands in the same line before a place. -/
def lineStart (before : List Char) : List Char := (before.reverse.takeWhile (· ≠ '\n')).reverse

/-- What stands in the same line from a place on, without the line feed. -/
def lineRest (after : List Char) : List Char := after.takeWhile (· ≠ '\n')

variable {text cs before after line rest : List Char} {ls : List (List Char)} {c : Char}

theorem linesFrom_append (hline : '\n' ∉ line) (start rest : List Char) :
    linesFrom start (line ++ '\n' :: rest) =
      (start.reverse ++ (line ++ ['\n'])) :: linesFrom [] rest := by
  induction line generalizing start with
  | nil => simp [linesFrom]
  | cons c line ih =>
    have hc : c ≠ '\n' := (List.ne_of_not_mem_cons hline).symm
    rw [List.cons_append, linesFrom, if_neg hc, ih (List.not_mem_of_not_mem_cons hline)]
    simp

theorem linesFrom_of_not_mem (hline : '\n' ∉ line) (start : List Char) :
    linesFrom start line = if start = [] ∧ line = [] then [] else [start.reverse ++ line] := by
  induction line generalizing start with
  | nil => cases start <;> simp [linesFrom]
  | cons c line ih =>
    have hc : c ≠ '\n' := (List.ne_of_not_mem_cons hline).symm
    rw [linesFrom, if_neg hc, ih (List.not_mem_of_not_mem_cons hline)]
    simp

/-- A text has lines in one way only. -/
theorem IsLines.eq_lines (h : IsLines text ls) : ls = lines text := by
  induction h with
  | nil => rfl
  | last hne hline => rw [lines, linesFrom_of_not_mem hline, if_neg fun h => hne h.2]; rfl
  | cons hline _ ih => rw [lines, linesFrom_append hline, ih]; rfl

theorem isLines_linesFrom {start : List Char} (hstart : '\n' ∉ start) (cs : List Char) :
    IsLines (start.reverse ++ cs) (linesFrom start cs) := by
  induction cs generalizing start with
  | nil =>
    cases start with
    | nil => exact .nil
    | cons c start =>
      rw [List.append_nil]
      exact .last (by simp) fun h => hstart (List.mem_reverse.mp h)
  | cons c cs ih =>
    rw [linesFrom]
    split
    · next hc =>
      subst hc
      rw [List.reverse_cons]
      exact .cons (fun h => hstart (List.mem_reverse.mp h)) (ih List.not_mem_nil)
    · next hc =>
      have hmem : '\n' ∉ c :: start := List.not_mem_cons_of_ne_of_not_mem (Ne.symm hc) hstart
      simpa using ih hmem

/-- What the lines of a text are said to be they are. -/
theorem isLines_lines (text : List Char) : IsLines text (lines text) :=
  isLines_linesFrom List.not_mem_nil text

theorem IsLines.flatten (h : IsLines text ls) : ls.flatten = text := by
  rw [h.eq_lines, flatten_lines]

/-- The last line without its line feed. -/
theorem IsLines.exists_last (h : IsLines text ls) (hls : ls ≠ []) :
    ∃ done body ending, ls = done ++ [body ++ ending] ∧ '\n' ∉ body ∧
      (ending = [] ∨ ending = ['\n']) := by
  induction h with
  | nil => exact absurd rfl hls
  | @last line _ hline => exact ⟨[], line, [], by simp, hline, .inl rfl⟩
  | @cons line rest ls hline _ ih =>
    cases ls with
    | nil => exact ⟨[], line, ['\n'], rfl, hline, .inr rfl⟩
    | cons l ls =>
      obtain ⟨done, body, ending, hlast, hbody, hending⟩ := ih (List.cons_ne_nil l ls)
      exact ⟨(line ++ ['\n']) :: done, body, ending, by rw [hlast]; rfl, hbody, hending⟩

/-! ## The line of a character -/

theorem lineRest_of_not_mem (h : '\n' ∉ after) : lineRest after = after := by
  refine List.takeWhile_eq_self_iff.mpr fun c hc => decide_eq_true ?_
  rintro rfl
  exact h hc

/-- Nothing after a line feed stands in the same line. -/
theorem lineRest_append (after rest : List Char) :
    lineRest (after ++ '\n' :: rest) = lineRest after := by
  unfold lineRest
  induction after with
  | nil => rfl
  | cons c after ih => rw [List.cons_append, List.takeWhile_cons, List.takeWhile_cons, ih]

theorem not_mem_lineRest (after : List Char) : '\n' ∉ lineRest after := by
  intro hmem
  have hne := List.mem_takeWhile_imp (p := (· ≠ '\n')) hmem
  simp at hne

theorem lineStart_eq (before : List Char) : lineStart before = (lineRest before.reverse).reverse :=
  rfl

theorem lineStart_of_not_mem (h : '\n' ∉ before) : lineStart before = before := by
  rw [lineStart_eq, lineRest_of_not_mem fun hmem => h (List.mem_reverse.mp hmem),
    List.reverse_reverse]

/-- Nothing before a line feed stands in the same line. -/
theorem lineStart_append (line before : List Char) :
    lineStart (line ++ '\n' :: before) = lineStart before := by
  rw [lineStart_eq, lineStart_eq, List.reverse_append, List.reverse_cons, List.append_assoc,
    List.singleton_append, lineRest_append]

theorem not_mem_lineStart (before : List Char) : '\n' ∉ lineStart before :=
  fun hmem => not_mem_lineRest before.reverse (List.mem_reverse.mp hmem)

/-- A character without a line feed before it stands in the first line. -/
theorem exists_line_of_first {tail : List Char} (hbefore : '\n' ∉ before)
    (hline : line = before ++ c :: tail)
    (htail : c ≠ '\n' → tail = lineRest after ∨ tail = lineRest after ++ ['\n']) :
    ∃ done rest others, line :: ls = done ++ (lineStart before ++ c :: rest) :: others ∧
      done.flatten ++ lineStart before = before ∧ done.length = before.count '\n' ∧
      (c ≠ '\n' → rest = lineRest after ∨ rest = lineRest after ++ ['\n']) := by
  refine ⟨[], tail, ls, ?_, ?_, ?_, htail⟩
  · rw [lineStart_of_not_mem hbefore, hline, List.nil_append]
  · rw [lineStart_of_not_mem hbefore, List.flatten_nil, List.nil_append]
  · rw [List.count_eq_zero_of_not_mem hbefore, List.length_nil]

/-- The line that holds a character, and the lines before it: they hold what stands before that
line, and there are as many of them as line feeds. -/
theorem IsLines.exists_line (h : IsLines (before ++ c :: after) ls) :
    ∃ done rest others, ls = done ++ (lineStart before ++ c :: rest) :: others ∧
      done.flatten ++ lineStart before = before ∧ done.length = before.count '\n' ∧
      (c ≠ '\n' → rest = lineRest after ∨ rest = lineRest after ++ ['\n']) := by
  generalize htext : before ++ c :: after = text at h
  induction h generalizing before with
  | nil => simp at htext
  | @last line _ hline =>
    subst htext
    obtain ⟨hbefore, hafter⟩ : '\n' ∉ before ∧ '\n' ∉ after := by
      simp only [List.mem_append, List.mem_cons, not_or] at hline
      exact ⟨hline.1, hline.2.2⟩
    exact exists_line_of_first hbefore rfl fun _ => .inl (lineRest_of_not_mem hafter).symm
  | @cons line rest ls hline _ ih =>
    rcases List.append_eq_append_iff.mp htext with
      ⟨between, rfl, hbetween⟩ | ⟨between, rfl, hbetween⟩
    · -- The character stands in the first line, or ends it.
      rw [List.mem_append, not_or] at hline
      cases between with
      | nil =>
        obtain ⟨rfl, rfl⟩ := List.cons.inj hbetween
        exact exists_line_of_first hline.1 (by rw [List.append_nil]) fun hc => absurd rfl hc
      | cons c' between =>
        rw [List.cons_append] at hbetween
        obtain ⟨rfl, rfl⟩ := List.cons.inj hbetween
        refine exists_line_of_first hline.1 (List.append_assoc _ _ _) fun _ => .inr ?_
        rw [lineRest_append, lineRest_of_not_mem (List.not_mem_of_not_mem_cons hline.2)]
        rfl
    · cases between with
      | nil =>
        obtain ⟨rfl, rfl⟩ := List.cons.inj hbetween
        rw [List.append_nil]
        exact exists_line_of_first hline rfl fun hc => absurd rfl hc
      | cons c' between =>
        obtain ⟨rfl, rfl⟩ := List.cons.inj hbetween
        obtain ⟨done, tail, others, rfl, hdone, hlength, htail⟩ := ih rfl
        refine ⟨(line ++ ['\n']) :: done, tail, others, ?_, ?_, ?_, htail⟩
        · rw [lineStart_append, List.cons_append]
        · rw [lineStart_append, List.flatten_cons, List.append_assoc, hdone, List.append_assoc]
          rfl
        · rw [List.length_cons, hlength, List.count_append, List.count_eq_zero_of_not_mem hline,
            List.count_cons_self, Nat.zero_add]

/-! ## Looking a line up -/

/-- The lines before the one that holds an offset are passed. -/
theorem lineFrom_append {done others : List (List Char)} {column : Nat}
    (h : column < byteLength line) (number : Nat) (last : LineOffset) :
    lineFrom number last (done ++ line :: others) (byteLength done.flatten + column) =
      ⟨number + done.length, line, column⟩ := by
  induction done generalizing number last with
  | nil =>
    rw [List.flatten_nil, byteLength_nil, Nat.zero_add, List.nil_append, lineFrom, if_pos h]
    rfl
  | cons l done ih =>
    have hle : ¬byteLength l + byteLength done.flatten + column < byteLength l := by omega
    have hoffset : byteLength l + byteLength done.flatten + column - byteLength l =
        byteLength done.flatten + column := by omega
    rw [List.flatten_cons, byteLength_append, List.cons_append, lineFrom, if_neg hle, hoffset, ih,
      List.length_cons, Nat.add_assoc, Nat.add_comm 1]

/-- All lines are passed where the offset is past the end. -/
theorem lineFrom_past {done : List (List Char)} {offset : Nat}
    (h : byteLength (done ++ [line]).flatten ≤ offset) (number : Nat) (last : LineOffset) :
    lineFrom number last (done ++ [line]) offset =
      ⟨number + done.length, line, byteLength (dropLineFeeds line)⟩ := by
  induction done generalizing number last offset with
  | nil =>
    have hle : ¬offset < byteLength line := by simpa using h
    rw [List.nil_append, lineFrom, if_neg hle, lineFrom]
    rfl
  | cons l done ih =>
    rw [List.cons_append, List.flatten_cons, byteLength_append] at h
    have hle : ¬offset < byteLength l := by omega
    have hrest : byteLength (done ++ [line]).flatten ≤ offset - byteLength l := by omega
    rw [List.cons_append, lineFrom, if_neg hle, ih hrest, List.length_cons, Nat.add_assoc,
      Nat.add_comm 1]

/-! ## Bytes -/

theorem toUTF8_toList (text : String) :
    text.toUTF8.data.toList = text.toList.flatMap String.utf8EncodeChar := by
  obtain ⟨cs, rfl⟩ : ∃ cs, text = String.ofList cs := ⟨text.toList, String.ofList_toList.symm⟩
  simp [List.utf8Encode]

theorem length_flatMap_utf8EncodeChar (cs : List Char) :
    (cs.flatMap String.utf8EncodeChar).length = byteLength cs := by
  induction cs with
  | nil => rfl
  | cons c cs ih =>
    rw [List.flatMap_cons, List.length_append, String.length_utf8EncodeChar, ih, byteLength_cons]

/-- The byte of a line feed belongs to no other character. -/
theorem not_mem_utf8EncodeChar (hc : c ≠ '\n') : 10 ∉ String.utf8EncodeChar c := by
  have hvalid : c.val.toNat < 1114112 := by
    rcases c.valid with h | h <;> omega
  have hlarge : ∀ n < 256, 128 ≤ n → (10 : UInt8) ≠ UInt8.ofNat n := by
    intro n hn hle h
    have hten := congrArg UInt8.toNat h
    rw [UInt8.toNat_ofNat_of_lt' hn] at hten
    change 10 = n at hten
    omega
  intro h
  unfold String.utf8EncodeChar at h
  dsimp only at h
  split at h
  · next hle =>
    have hten := congrArg UInt8.toNat (List.mem_singleton.mp h)
    rw [UInt8.toNat_ofNat_of_lt' (show c.val.toNat < 256 by omega)] at hten
    exact hc (Char.ext (UInt32.toNat_inj.mp hten.symm))
  · -- The bytes of other characters have their highest bit set.
    split at h
    · simp only [List.mem_cons, List.not_mem_nil, or_false] at h
      rcases h with h | h <;> exact hlarge _ (by omega) (by omega) h
    · split at h
      · simp only [List.mem_cons, List.not_mem_nil, or_false] at h
        rcases h with h | h | h <;> exact hlarge _ (by omega) (by omega) h
      · simp only [List.mem_cons, List.not_mem_nil, or_false] at h
        rcases h with h | h | h | h <;> exact hlarge _ (by omega) (by omega) h

theorem count_flatMap_utf8EncodeChar (cs : List Char) :
    (cs.flatMap String.utf8EncodeChar).count 10 = cs.count '\n' := by
  induction cs with
  | nil => rfl
  | cons c cs ih =>
    rw [List.flatMap_cons, List.count_append, ih]
    by_cases hc : c = '\n'
    · subst hc
      rw [List.count_cons_self, Nat.add_comm]
      rfl
    · rw [List.count_eq_zero_of_not_mem (not_mem_utf8EncodeChar hc), Nat.zero_add,
        List.count_cons_of_ne hc]

theorem exists_char_at {offset : Nat} (h : offset < byteLength cs) :
    ∃ before c after, cs = before ++ c :: after ∧ byteLength before ≤ offset ∧
      offset < byteLength before + c.utf8Size := by
  induction cs generalizing offset with
  | nil => simp at h
  | cons c cs ih =>
    by_cases hc : offset < c.utf8Size
    · exact ⟨[], c, cs, rfl, Nat.zero_le _, by simpa using hc⟩
    · rw [byteLength_cons] at h
      obtain ⟨before, c', after, rfl, hle, hlt⟩ := @ih (offset - c.utf8Size) (by omega)
      refine ⟨c :: before, c', after, rfl, ?_, ?_⟩
      · rw [byteLength_cons]
        omega
      · rw [byteLength_cons]
        omega

/-- The line feeds before a byte are those before its character. -/
theorem lineFeedsBefore_eq {text : String} {offset : Nat}
    (htext : text.toList = before ++ c :: after) (hle : byteLength before ≤ offset)
    (hlt : offset < byteLength before + c.utf8Size) :
    lineFeedsBefore text offset = before.count '\n' := by
  have hinside : ((String.utf8EncodeChar c).take (offset - byteLength before)).count 10 = 0 := by
    by_cases hc : c = '\n'
    · subst hc
      have hzero : offset - byteLength before = 0 := by
        change offset < byteLength before + 1 at hlt
        omega
      rw [hzero]
      rfl
    · exact List.count_eq_zero_of_not_mem fun hmem =>
        not_mem_utf8EncodeChar hc (List.mem_of_mem_take hmem)
  have hshort : offset - byteLength before - (String.utf8EncodeChar c).length = 0 := by
    rw [String.length_utf8EncodeChar]
    omega
  rw [lineFeedsBefore, toUTF8_toList, htext, List.flatMap_append, List.flatMap_cons,
    List.take_append, List.take_append, length_flatMap_utf8EncodeChar, hshort, List.take_zero,
    List.append_nil, List.count_append, hinside, List.take_of_length_le,
    count_flatMap_utf8EncodeChar, Nat.add_zero]
  rw [length_flatMap_utf8EncodeChar]
  exact hle

/-! ## The line of an offset -/

/-- The line of a character, and the offset of one of its bytes in that line. -/
theorem lineAt_of_toList {text : String} {offset : Nat}
    (htext : text.toList = before ++ c :: after) (hle : byteLength before ≤ offset)
    (hlt : offset < byteLength before + c.utf8Size) :
    ∃ done rest others, lines text.toList = done ++ (lineStart before ++ c :: rest) :: others ∧
      done.flatten ++ lineStart before = before ∧
      (c ≠ '\n' → rest = lineRest after ∨ rest = lineRest after ++ ['\n']) ∧
      done.length = before.count '\n' ∧
      lineAt text offset = ⟨before.count '\n' + 1, lineStart before ++ c :: rest,
        byteLength (lineStart before) + (offset - byteLength before)⟩ := by
  have hlines := isLines_lines text.toList
  rw [htext] at hlines
  obtain ⟨done, rest, others, hls, hdone, hlength, hrest⟩ := hlines.exists_line
  rw [← htext] at hls
  refine ⟨done, rest, others, hls, hdone, hrest, hlength, ?_⟩
  have hbytes : byteLength done.flatten + byteLength (lineStart before) = byteLength before := by
    rw [← byteLength_append, hdone]
  have hoffset : offset = byteLength done.flatten +
      (byteLength (lineStart before) + (offset - byteLength before)) := by omega
  have hcolumn : byteLength (lineStart before) + (offset - byteLength before) <
      byteLength (lineStart before ++ c :: rest) := by
    rw [byteLength_append, byteLength_cons]
    omega
  rw [lineAt, hls, hoffset, lineFrom_append hcolumn, hlength, Nat.add_comm 1, ← hoffset]

theorem dropLineFeeds_append {body ending : List Char} (hbody : '\n' ∉ body)
    (hending : ending = [] ∨ ending = ['\n']) : dropLineFeeds (body ++ ending) = body := by
  have hdrop : body.reverse.dropWhile (· == '\n') = body.reverse := by
    refine List.dropWhile_eq_self_iff.mpr fun hpos hhead => hbody ?_
    have hmem := List.mem_reverse.mp (List.getElem_mem hpos)
    rwa [beq_iff_eq.mp hhead] at hmem
  rcases hending with rfl | rfl
  · rw [List.append_nil, dropLineFeeds, hdrop, List.reverse_reverse]
  · rw [dropLineFeeds, List.reverse_append, List.reverse_singleton, List.singleton_append,
      List.dropWhile_cons_of_pos (by rfl), hdrop, List.reverse_reverse]

/-- **Finding the line of an offset inverts byte offsets.** An offset in the text leads to the line
with the number of line feeds before it, and one more, and to the column that added to the start of
that line is the offset. An offset past the end leads to the end of the last line, before its line
feed, and in an empty text to an empty line. -/
theorem lineAt_inverts {text : String} {ls : List (List Char)} (hls : IsLines text.toList ls)
    (offset : Nat) :
    (offset < text.utf8ByteSize → ∃ line column,
      lineAt text offset = ⟨lineFeedsBefore text offset + 1, line, column⟩ ∧
      ls[lineFeedsBefore text offset]? = some line ∧
      byteLength (ls.take (lineFeedsBefore text offset)).flatten + column = offset) ∧
    (text.utf8ByteSize ≤ offset → ∀ last, ls.getLast? = some last → ∃ body ending,
      lineAt text offset = ⟨ls.length, last, byteLength body⟩ ∧ last = body ++ ending ∧
      '\n' ∉ body ∧ (ending = [] ∨ ending = ['\n'])) ∧
    (text = "" → lineAt text offset = ⟨1, [], 0⟩) := by
  have hsize : text.utf8ByteSize = byteLength text.toList := by
    rw [byteLength_eq, String.ofList_toList]
  have heq := hls.eq_lines
  refine ⟨fun hlt => ?_, fun hle last hlast => ?_, ?_⟩
  · rw [hsize] at hlt
    obtain ⟨before, c, after, htext, hle, hlt⟩ := exists_char_at hlt
    obtain ⟨done, rest, others, hlines, hdone, -, hlength, hat⟩ := lineAt_of_toList htext hle hlt
    have hbytes : byteLength done.flatten + byteLength (lineStart before) = byteLength before := by
      rw [← byteLength_append, hdone]
    rw [lineFeedsBefore_eq htext hle hlt, heq, hlines, ← hlength]
    refine ⟨_, _, hlength ▸ hat, by simp, ?_⟩
    rw [List.take_left]
    omega
  · have hne : ls ≠ [] := by
      rintro rfl
      cases hlast
    obtain ⟨done, body, ending, rfl, hbody, hending⟩ := hls.exists_last hne
    rw [List.getLast?_concat] at hlast
    cases hlast
    refine ⟨body, ending, ?_, rfl, hbody, hending⟩
    rw [hsize, ← hls.flatten] at hle
    rw [lineAt, ← heq, lineFrom_past hle, dropLineFeeds_append hbody hending, List.length_append,
      List.length_singleton, Nat.add_comm 1]
  · rintro rfl
    rfl

theorem lineAt_inverts_emptyLine :
    let text := "é\n\nab\n"
    let ls := [['é', '\n'], ['\n'], ['a', 'b', '\n']]
    IsLines text.toList ls ∧
    (5 < text.utf8ByteSize ∧ ∃ line column,
      lineAt text 5 = ⟨lineFeedsBefore text 5 + 1, line, column⟩ ∧
      ls[lineFeedsBefore text 5]? = some line ∧
      byteLength (ls.take (lineFeedsBefore text 5)).flatten + column = 5) ∧
    (text.utf8ByteSize ≤ 40 ∧ ∃ body ending,
      lineAt text 40 = ⟨ls.length, ['a', 'b', '\n'], byteLength body⟩ ∧
      ['a', 'b', '\n'] = body ++ ending ∧ '\n' ∉ body ∧ (ending = [] ∨ ending = ['\n'])) ∧
    lineAt "" 3 = ⟨1, [], 0⟩ := by
  intro text ls
  have hls : IsLines text.toList ls := by
    have hlines : lines text.toList = ls := by decide +kernel
    exact hlines ▸ isLines_lines text.toList
  have hlt : 5 < text.utf8ByteSize := by decide +kernel
  have hle : text.utf8ByteSize ≤ 40 := by decide +kernel
  exact ⟨hls, ⟨hlt, (lineAt_inverts hls 5).1 hlt⟩,
    ⟨hle, (lineAt_inverts hls 40).2.1 hle ['a', 'b', '\n'] rfl⟩,
    (@lineAt_inverts "" [] .nil 3).2.2 rfl⟩

end FrontEnd.Text
