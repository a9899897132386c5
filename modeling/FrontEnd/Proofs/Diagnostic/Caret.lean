import FrontEnd.Diagnostic.Report
import FrontEnd.Proofs.Linking.UniqueNames
import FrontEnd.Proofs.Text.Lines
import FrontEnd.Token.Scan

/-!
# The caret of a report

A report about a character that is no white space shows its line and number, behind bars that
stand below one another. The caret is moved into the line by the bytes that are shown before the
character, so it stands below the character if and only if each of them is a character.
-/

namespace FrontEnd.Diagnostic

open Text

variable {d : Diagnostic} {source : String} {before after xs ys margin shown pointer : List Char}
  {c : Char}

/-- The number of the line of a place. -/
def lineNumber (before : List Char) : List Char := (toString (before.count '\n' + 1)).toList

/-- What is shown of a line before a place in it. -/
def shownStart (before : List Char) : List Char := (lineStart before).dropWhile isIndent

/-- The line of a character without the blanks at its start and the white space at its end. -/
def shownLine (before : List Char) (c : Char) (after : List Char) : List Char :=
  dropBlankEnd ((lineStart before ++ c :: lineRest after).dropWhile isIndent)

/-- The column of a place where its line is shown behind the number and the bar. -/
def placeColumn (before : List Char) : Nat :=
  (lineNumber before).length + 3 + (shownStart before).length

/-- The last three lines of a report: the margin, the line of the character between `before` and
`after`, and the caret. -/
structure Shows (d : Diagnostic) (source : String) (before : List Char) (c : Char)
    (after margin shown pointer : List Char) : Prop where
  report : (d.report source).toList =
    d.summary.toList ++ '\n' :: (margin ++ '\n' :: (shown ++ '\n' :: pointer))
  single : ∀ cs ∈ [margin, shown, pointer], '\n' ∉ cs
  numbered : shown = lineNumber before ++ " | ".toList ++ shownLine before c after
  character : shown[placeColumn before]? = some c
  bars : ∃ bar, ∀ cs ∈ [margin, shown, pointer], cs.idxOf? '|' = some bar
  caret : pointer.getLast? = some '^'

/-- The report shows the line of a character, and the caret below it. -/
def PointsAt (d : Diagnostic) (source : String) (before : List Char) (c : Char)
    (after : List Char) : Prop :=
  ∃ margin shown pointer, d.Shows source before c after margin shown pointer ∧
    pointer.idxOf? '^' = some (placeColumn before)

/-! ## Blanks around a line -/

theorem eq_of_isIndent (h : isIndent c = true) : c = ' ' ∨ c = '\t' := by
  rwa [isIndent, Bool.or_eq_true, beq_iff_eq, beq_iff_eq] at h

theorem isIndent_of_not_isBlank (hc : isBlank c = false) : isIndent c = false := by
  by_contra h
  rcases eq_of_isIndent (Bool.of_not_eq_false h) with rfl | rfl <;> exact absurd hc (by decide)

theorem byteLength_eq_length_iff (cs : List Char) :
    byteLength cs = cs.length ↔ ∀ c ∈ cs, c.utf8Size = 1 := by
  induction cs with
  | nil => simp
  | cons c cs ih =>
    have hpos := c.utf8Size_pos
    have hle := length_le_byteLength cs
    rw [List.forall_mem_cons, ← ih, byteLength_cons, List.length_cons]
    omega

theorem byteLength_indent (cs : List Char) :
    byteLength (cs.takeWhile isIndent) = (cs.takeWhile isIndent).length := by
  refine (byteLength_eq_length_iff _).mpr fun c hc => ?_
  rcases eq_of_isIndent (List.mem_takeWhile_imp hc) with rfl | rfl <;> rfl

theorem takeWhile_indent (hc : isIndent c = false) (xs ys : List Char) :
    (xs ++ c :: ys).takeWhile isIndent = xs.takeWhile isIndent := by
  induction xs with
  | nil => rw [List.nil_append, List.takeWhile_cons, hc]; rfl
  | cons x xs ih => rw [List.cons_append, List.takeWhile_cons, List.takeWhile_cons, ih]

theorem dropWhile_indent (hc : isIndent c = false) (xs ys : List Char) :
    (xs ++ c :: ys).dropWhile isIndent = xs.dropWhile isIndent ++ c :: ys := by
  induction xs with
  | nil => rw [List.nil_append, List.dropWhile_cons, hc]; rfl
  | cons x xs ih =>
    rw [List.cons_append, List.dropWhile_cons, List.dropWhile_cons, ih]
    split <;> rfl

theorem drop_indent (cs : List Char) :
    cs.drop (cs.takeWhile isIndent).length = cs.dropWhile isIndent := by
  have h : (cs.takeWhile isIndent ++ cs.dropWhile isIndent).drop (cs.takeWhile isIndent).length =
      cs.dropWhile isIndent := List.drop_left
  rwa [List.takeWhile_append_dropWhile] at h

theorem dropBlankEnd_lineFeed (cs : List Char) : dropBlankEnd (cs ++ ['\n']) = dropBlankEnd cs := by
  rw [dropBlankEnd, List.reverse_append, List.reverse_singleton, List.singleton_append,
    List.dropWhile_cons_of_pos (by decide), dropBlankEnd]

theorem mem_of_mem_dropBlankEnd (h : c ∈ dropBlankEnd xs) : c ∈ xs :=
  List.mem_reverse.mp ((List.dropWhile_sublist isBlank).mem (List.mem_reverse.mp h))

/-- Nothing up to a character that is no white space is cut off. -/
theorem exists_dropBlankEnd (hc : isBlank c = false) (xs ys : List Char) :
    ∃ tail, dropBlankEnd (xs ++ c :: ys) = xs ++ c :: tail := by
  have hself : (c :: xs.reverse).dropWhile isBlank = c :: xs.reverse :=
    List.dropWhile_cons_of_neg (by rw [hc]; exact Bool.false_ne_true)
  rw [dropBlankEnd, List.reverse_append, List.reverse_cons, List.append_assoc,
    List.singleton_append, List.dropWhile_append, hself]
  split
  · exact ⟨[], by simp⟩
  · exact ⟨(ys.reverse.dropWhile isBlank).reverse, by simp⟩

theorem not_mem_shownLine (hc : c ≠ '\n') (before after : List Char) :
    '\n' ∉ shownLine before c after := by
  intro hmem
  have hline := (List.dropWhile_sublist isIndent).mem (mem_of_mem_dropBlankEnd hmem)
  rw [List.mem_append, List.mem_cons] at hline
  rcases hline with h | h | h
  · exact not_mem_lineStart before h
  · exact hc h.symm
  · exact not_mem_lineRest after h

/-! ## Columns -/

theorem idxOf?_append_cons (h : c ∉ xs) (ys : List Char) :
    (xs ++ c :: ys).idxOf? c = some xs.length := by
  induction xs with
  | nil => simp [List.idxOf?_cons]
  | cons x xs ih =>
    have hx : x ≠ c := (List.ne_of_not_mem_cons h).symm
    rw [List.cons_append, List.idxOf?_cons, if_neg (by simpa using hx),
      ih (List.not_mem_of_not_mem_cons h)]
    rfl

theorem not_mem_lineNumber (hc : c.isDigit = false) (before : List Char) :
    c ∉ lineNumber before := by
  intro hmem
  rw [isDigit_of_mem_toString hmem] at hc
  cases hc

/-! ## Reports -/

theorem toList_summary (d : Diagnostic) :
    d.summary.toList =
      d.cause.headline.toList ++ '\n' :: ("-> ".toList ++ d.position.file.toList) := by
  have hself : ∀ s : String, toString s = s := fun _ => rfl
  simp [summary, hself]

/-- The empty line above. -/
def marginLine (before : List Char) : List Char :=
  List.replicate ((lineNumber before).length + 1) ' ' ++ ['|']

/-- The line of a character behind its number. -/
def numberedLine (before : List Char) (c : Char) (after : List Char) : List Char :=
  lineNumber before ++ " | ".toList ++ shownLine before c after

/-- The line with the caret. -/
def pointerLine (before : List Char) : List Char :=
  marginLine before ++ ' ' :: (List.replicate (byteLength (shownStart before)) '-' ++ ['^'])

/-- The lines of a report about a character that is no white space. -/
theorem reportLines_eq (htext : source.toList = before ++ c :: after)
    (hat : byteLength before = d.position.offset) (hc : isBlank c = false) :
    d.reportLines source = [d.cause.headline.toList, "-> ".toList ++ d.position.file.toList,
      marginLine before, numberedLine before c after, pointerLine before] := by
  have hindent := isIndent_of_not_isBlank hc
  have hfeed : c ≠ '\n' := by
    rintro rfl
    cases hc
  obtain ⟨done, rest, others, -, -, hrest, -, hline⟩ :=
    lineAt_of_toList htext (Nat.le_refl _) (Nat.lt_add_of_pos_right c.utf8Size_pos)
  simp only [hat, Nat.sub_self, Nat.add_zero] at hline
  have hshown : dropBlankEnd ((lineStart before ++ c :: rest).dropWhile isIndent) =
      shownLine before c after := by
    rcases hrest hfeed with rfl | rfl
    · rfl
    · rw [shownLine, dropWhile_indent hindent, dropWhile_indent hindent, ← List.cons_append,
        ← List.append_assoc, dropBlankEnd_lineFeed]
  have hcolumn : byteLength (lineStart before) -
      ((lineStart before).takeWhile isIndent).length = byteLength (shownStart before) := by
    have hbytes := congrArg byteLength (List.takeWhile_append_dropWhile (p := isIndent)
      (l := lineStart before))
    rw [byteLength_append, byteLength_indent, ← shownStart] at hbytes
    omega
  have hdrop := drop_indent (lineStart before ++ c :: rest)
  rw [takeWhile_indent hindent] at hdrop
  simp only [reportLines, hline, takeWhile_indent hindent, hdrop, hshown, hcolumn, alignRight]
  simp [lineNumber, marginLine, numberedLine, pointerLine]

theorem idxOf?_marginLine (before rest : List Char) :
    (marginLine before ++ rest).idxOf? '|' = some ((lineNumber before).length + 1) := by
  have hspaces : '|' ∉ List.replicate ((lineNumber before).length + 1) ' ' := fun h =>
    absurd (List.eq_of_mem_replicate h) (by decide)
  rw [marginLine, List.append_assoc, List.singleton_append, idxOf?_append_cons hspaces,
    List.length_replicate]

theorem idxOf?_numberedLine (before : List Char) (c : Char) (after : List Char) :
    (numberedLine before c after).idxOf? '|' = some ((lineNumber before).length + 1) := by
  have hnumber : '|' ∉ lineNumber before ++ [' '] := by
    rw [List.mem_append, List.mem_singleton, not_or]
    exact ⟨not_mem_lineNumber (by decide) before, by decide⟩
  have hline : numberedLine before c after =
      (lineNumber before ++ [' ']) ++ '|' :: (' ' :: shownLine before c after) := by
    simp [numberedLine]
  rw [hline, idxOf?_append_cons hnumber, List.length_append, List.length_singleton]

theorem pointerLine_concat (before : List Char) :
    pointerLine before = (marginLine before ++
      ' ' :: List.replicate (byteLength (shownStart before)) '-') ++ ['^'] := by
  simp [pointerLine]

theorem idxOf?_pointerLine (before : List Char) :
    (pointerLine before).idxOf? '^' =
      some ((lineNumber before).length + 3 + byteLength (shownStart before)) := by
  have hmem : '^' ∉ marginLine before ++
      ' ' :: List.replicate (byteLength (shownStart before)) '-' := by
    simp [marginLine, List.mem_replicate]
  rw [pointerLine_concat, idxOf?_append_cons hmem]
  simp only [marginLine, List.length_append, List.length_replicate, List.length_cons,
    List.length_nil]
  congr 1
  omega

theorem getElem?_numberedLine (hc : isBlank c = false) (before after : List Char) :
    (numberedLine before c after)[placeColumn before]? = some c := by
  obtain ⟨tail, htail⟩ := exists_dropBlankEnd hc (shownStart before) (lineRest after)
  have hline : numberedLine before c after =
      (lineNumber before ++ " | ".toList ++ shownStart before) ++ c :: tail := by
    rw [numberedLine, shownLine, dropWhile_indent (isIndent_of_not_isBlank hc), ← shownStart, htail,
      List.append_assoc _ (shownStart before)]
  have hcolumn : placeColumn before =
      (lineNumber before ++ " | ".toList ++ shownStart before).length := by
    rw [placeColumn, List.length_append, List.length_append]
    rfl
  rw [hline, hcolumn, List.getElem?_append_right (Nat.le_refl _), Nat.sub_self]
  rfl

theorem single_lines (hc : isBlank c = false) (before after : List Char) :
    ∀ cs ∈ [marginLine before, numberedLine before c after, pointerLine before], '\n' ∉ cs := by
  have hfeed : c ≠ '\n' := by
    rintro rfl
    cases hc
  have hmargin : '\n' ∉ marginLine before := by
    simp [marginLine, List.mem_replicate]
  have hnumbered : '\n' ∉ numberedLine before c after := by
    have hnumber := not_mem_lineNumber (c := '\n') (by decide) before
    have hshown := not_mem_shownLine hfeed before after
    simp [numberedLine, hnumber, hshown]
  have hpointer : '\n' ∉ pointerLine before := by
    simp [pointerLine, hmargin, List.mem_replicate]
  simp only [List.forall_mem_cons]
  exact ⟨hmargin, hnumbered, hpointer, List.forall_mem_nil _⟩

/-- A report shows the character. -/
theorem shows_lines (htext : source.toList = before ++ c :: after)
    (hat : byteLength before = d.position.offset) (hc : isBlank c = false) :
    d.Shows source before c after (marginLine before) (numberedLine before c after)
      (pointerLine before) where
  report := by
    rw [report, reportLines_eq htext hat hc, String.toList_ofList, toList_summary]
    simp
  single := single_lines hc before after
  numbered := rfl
  character := getElem?_numberedLine hc before after
  bars := by
    have hmargin := idxOf?_marginLine before []
    rw [List.append_nil] at hmargin
    refine ⟨(lineNumber before).length + 1, ?_⟩
    simp only [List.forall_mem_cons]
    exact ⟨hmargin, idxOf?_numberedLine before c after, idxOf?_marginLine before _,
      List.forall_mem_nil _⟩
  caret := by rw [pointerLine_concat, List.getLast?_concat]

/-- A report has one margin, one line and one caret. -/
theorem Shows.eq_lines {margin' shown' pointer' : List Char}
    (h : d.Shows source before c after margin shown pointer)
    (h' : d.Shows source before c after margin' shown' pointer') :
    margin = margin' ∧ shown = shown' ∧ pointer = pointer' := by
  have hfirst : ∀ {xs ys xs' ys' : List Char}, '\n' ∉ xs → '\n' ∉ xs' →
      xs ++ '\n' :: ys = xs' ++ '\n' :: ys' → xs = xs' ∧ ys = ys' := by
    intro xs ys xs' ys' hxs hxs' heq
    have hrest := congrArg lineRest heq
    simp only [lineRest_append, lineRest_of_not_mem hxs, lineRest_of_not_mem hxs'] at hrest
    subst hrest
    exact ⟨rfl, (List.cons.inj (List.append_cancel_left heq)).2⟩
  obtain ⟨-, hlines⟩ := List.cons.inj (List.append_cancel_left (h.report.symm.trans h'.report))
  obtain ⟨rfl, hrest⟩ := hfirst (h.single _ (.head _)) (h'.single _ (.head _)) hlines
  obtain ⟨rfl, rfl⟩ :=
    hfirst (h.single _ (.tail _ (.head _))) (h'.single _ (.tail _ (.head _))) hrest
  exact ⟨rfl, rfl, rfl⟩

/-- The caret stands below the character if every character that is shown before it is a byte. -/
theorem pointsAt_iff (htext : source.toList = before ++ c :: after)
    (hat : byteLength before = d.position.offset) (hc : isBlank c = false) :
    d.PointsAt source before c after ↔ ∀ x ∈ shownStart before, x.utf8Size = 1 := by
  have hshows := shows_lines htext hat hc
  have hcolumn : (pointerLine before).idxOf? '^' = some (placeColumn before) ↔
      ∀ x ∈ shownStart before, x.utf8Size = 1 := by
    rw [← byteLength_eq_length_iff, idxOf?_pointerLine, Option.some_inj, placeColumn]
    omega
  rw [← hcolumn]
  constructor
  · rintro ⟨margin, shown, pointer, h, hcaret⟩
    obtain ⟨-, -, rfl⟩ := h.eq_lines hshows
    exact hcaret
  · exact fun hcaret => ⟨_, _, _, hshows, hcaret⟩

/-- **A report shows its place, with a caret as many bytes into the line.** The line of a character
that is no white space is shown with its number and without blanks around it, behind bars that
stand below one another. The caret is moved by the bytes that are shown before the character, so it
stands below it unless one of the characters there takes up more than a byte. -/
theorem report_caret (htext : source.toList = before ++ c :: after)
    (hat : byteLength before = d.position.offset) (hc : isBlank c = false) :
    (∃ margin shown pointer, d.Shows source before c after margin shown pointer ∧
      pointer.idxOf? '^' =
        some ((lineNumber before).length + 3 + byteLength (shownStart before))) ∧
    (d.PointsAt source before c after ↔ ∀ x ∈ shownStart before, x.utf8Size = 1) :=
  ⟨⟨_, _, _, shows_lines htext hat hc, idxOf?_pointerLine before⟩, pointsAt_iff htext hat hc⟩

theorem report_caret_indented :
    let source := "fn main() \x7b\n    x := #\n\x7d\n"
    let before := "fn main() \x7b\n    x := ".toList
    let d : Diagnostic := ⟨.unrecognisedToken "#", ⟨21, "main.eb"⟩⟩
    source.toList = before ++ '#' :: "\n\x7d\n".toList ∧ byteLength before = d.position.offset ∧
    isBlank '#' = false ∧
    (∃ margin shown pointer, d.Shows source before '#' "\n\x7d\n".toList margin shown pointer ∧
      pointer.idxOf? '^' =
        some ((lineNumber before).length + 3 + byteLength (shownStart before))) ∧
    (d.PointsAt source before '#' "\n\x7d\n".toList ↔ ∀ x ∈ shownStart before, x.utf8Size = 1) := by
  intro source before d
  have htext : source.toList = before ++ '#' :: "\n\x7d\n".toList := by decide +kernel
  have hat : byteLength before = d.position.offset := by decide +kernel
  exact ⟨htext, hat, by decide, report_caret htext hat (by decide)⟩

/-- After a comment with an accent, the caret of an unknown character is one column too far. -/
theorem caret_past_accent :
    let source := "/* é */ #"
    let before := "/* é */ ".toList
    let d : Diagnostic := ⟨.unrecognisedToken "#", ⟨9, "shell"⟩⟩
    Token.Buffer.scan "shell" source = .error d ∧ source.toList = before ++ ['#'] ∧
    byteLength before = d.position.offset ∧ isBlank '#' = false ∧
    ¬d.PointsAt source before '#' [] := by
  intro source before d
  have htext : source.toList = before ++ ['#'] := by decide +kernel
  have hat : byteLength before = d.position.offset := by decide +kernel
  refine ⟨by decide +kernel, htext, hat, by decide, fun hpoints => ?_⟩
  have hsize := (pointsAt_iff htext hat (by decide)).mp hpoints 'é' (by decide +kernel)
  exact absurd hsize (by decide)

end FrontEnd.Diagnostic
