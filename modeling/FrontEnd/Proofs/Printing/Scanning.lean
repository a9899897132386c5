import FrontEnd.Proofs.Linking.UniqueNames
import FrontEnd.Proofs.Printing.Pieces

/-!
# Scanning pieces

The scanner cuts the text of pieces where the layout put them together: no pattern
reaches past the end of a piece, as what comes next is a blank, the end of a line, or a
mark that goes on with nothing. Since no line is empty, each piece becomes one token.
-/

namespace FrontEnd.Printing

open Token (Keyword Mark Suffix Shape Pattern Lexeme)

/-- The characters that may come right after a piece. -/
def boundaries : List Char := [' ', '\n', '(', ')', '[', ']', ',', ':']

theorem forall_mem_boundaries {P : Char → Prop} :
    (∀ c ∈ boundaries, P c) ↔
      P ' ' ∧ P '\n' ∧ P '(' ∧ P ')' ∧ P '[' ∧ P ']' ∧ P ',' ∧ P ':' := by
  simp [boundaries]

/-- Nothing that comes before the text goes on with it. -/
def Stops (rest : List Char) : Prop := ∀ c ∈ rest.head?, c ∈ boundaries

/-- The text does not lengthen the piece when it comes after it. -/
def Piece.EndsBefore : Piece → List Char → Prop
  | mark .openParen, _ | mark .openBracket, _ | lineEnd, _ => True
  | name _, rest => Stops rest ∨ ∃ rest', rest = '.' :: rest' ∧ Stops rest'
  | _, rest => Stops rest

theorem Stops.nil : Stops [] := nofun

theorem Stops.cons {c : Char} (h : c ∈ boundaries) (rest : List Char) : Stops (c :: rest) := by
  rintro _ ⟨⟩
  exact h

/-- The text is empty, or starts with a boundary. -/
theorem Stops.eq_nil_or {rest : List Char} (h : Stops rest) :
    rest = [] ∨ ∃ c ∈ boundaries, ∃ rest', rest = c :: rest' := by
  cases rest with
  | nil => exact .inl rfl
  | cons c rest => exact .inr ⟨c, h c rfl, rest, rfl⟩

/-- A boundary only ever begins a mark. -/
theorem notMem_spelling (m : Mark) : ∀ c ∈ boundaries, c ∉ m.spelling.drop 1 := by
  rw [forall_mem_boundaries]
  cases m <;> decide

/-- A mark that is found at another one, before a text that stops it, is found in it. -/
theorem isPrefixOf_spelling (m m' : Mark) {rest : List Char} (h : Stops rest) :
    m'.spelling.isPrefixOf (m.spelling ++ rest) = m'.spelling.isPrefixOf m.spelling := by
  rw [Bool.eq_iff_iff, List.isPrefixOf_iff_prefix, List.isPrefixOf_iff_prefix]
  refine ⟨fun hm' => ?_, fun hm' => hm'.trans (List.prefix_append _ _)⟩
  rcases List.prefix_or_prefix_of_prefix hm' (List.prefix_append _ rest) with hle | ⟨tail, htail⟩
  · exact hle
  · -- The part of `m'` that is not in `m` would have to begin with a boundary.
    cases tail with
    | nil =>
      rw [List.append_nil] at htail
      exact htail ▸ List.prefix_rfl
    | cons c tail =>
      have hrest : c :: tail <+: rest := by
        rwa [← htail, List.prefix_append_right_inj] at hm'
      have hmem : c ∈ m'.spelling.drop 1 := by
        rw [← htail]
        cases hm : m.spelling with
        | nil => exact absurd hm m.spelling_ne_nil
        | cons d ds => simp
      have hc : c ∈ boundaries := by
        obtain ⟨after, rfl⟩ := hrest
        exact h c rfl
      exact absurd hmem (notMem_spelling m' c hc)

/-- What a pattern takes at a mark does not depend on a text after it that stops it. -/
theorem length?_mark (p : Pattern) (m : Mark) {rest : List Char} (h : Stops rest) :
    p.length? (m.spelling ++ rest) = p.length? m.spelling := by
  cases p with
  | mark m' =>
    change (if _ then _ else _) = if _ then _ else _
    rw [isPrefixOf_spelling m m' h]
  | _ =>
    cases m with
    | dot | slash =>
      rcases h.eq_nil_or with rfl | ⟨c, hc, rest, rfl⟩
      · rfl
      · simp only [boundaries, List.mem_cons, List.not_mem_nil, or_false] at hc
        rcases hc with rfl | rfl | rfl | rfl | rfl | rfl | rfl | rfl <;> rfl
    | _ => rfl

theorem first?_mark (m : Mark) {rest : List Char} (h : Stops rest) :
    Pattern.first? (m.spelling ++ rest) = some (.mark m, m.spelling.length) := by
  have hsame : Pattern.first? (m.spelling ++ rest) = Pattern.first? m.spelling := by
    unfold Pattern.first?
    simp only [length?_mark _ m h]
  rw [hsame]
  cases m <;> rfl

/-! ## Names -/

/-- A name that ends before the text does not go on with it. -/
theorem nameLength_of_endsBefore {path : List String} {rest : List Char}
    (h : (Piece.name path).EndsBefore rest) (seen : Nat) :
    Token.nameLength seen rest = seen := by
  have hstops : ∀ c ∈ boundaries,
      Token.isNamePart c = false ∧ c ≠ '.' ∧ Token.isNameStart c = false :=
    forall_mem_boundaries.mpr (by decide)
  rcases h with h | ⟨rest, rfl, h⟩
  · cases rest with
    | nil => rfl
    | cons c rest =>
      obtain ⟨hpart, hdot, -⟩ := hstops c (h c rfl)
      simp [Token.nameLength, hpart, hdot]
  · cases rest with
    | nil => rfl
    | cons c rest =>
      obtain ⟨-, -, hstart⟩ := hstops c (h c rfl)
      have hdot : Token.isNamePart '.' = false := by decide
      simp [Token.nameLength, hdot, hstart]

theorem nameLength_append {cs : List Char} (h : cs.all Token.isNamePart = true) (seen : Nat)
    (rest : List Char) :
    Token.nameLength seen (cs ++ rest) = Token.nameLength (seen + cs.length) rest := by
  induction cs generalizing seen with
  | nil => rfl
  | cons c cs ih =>
    rw [List.all_cons, Bool.and_eq_true] at h
    rw [List.cons_append, Token.nameLength, if_pos h.1, ih h.2, List.length_cons]
    congr 1
    omega

/-- The segments after the first one, each with its dot. -/
def dotted (segments : List String) : List Char := segments.flatMap fun s => '.' :: s.toList

theorem toList_joinDots_cons (s : String) (others : List String) :
    (joinDots (s :: others)).toList = s.toList ++ dotted others := by
  induction others generalizing s with
  | nil => simp [joinDots, dotted]
  | cons s' others ih =>
    have hcons : joinDots (s :: s' :: others) = s ++ "." ++ joinDots (s' :: others) :=
      String.intercalate_cons_cons
    rw [hcons, String.toList_append, String.toList_append, ih]
    simp [dotted]

theorem nameLength_dotted {others path : List String} {rest : List Char} (hothers : AreNames others)
    (h : (Piece.name path).EndsBefore rest) (seen : Nat) :
    Token.nameLength seen (dotted others ++ rest) = seen + (dotted others).length := by
  induction others generalizing seen with
  | nil => exact nameLength_of_endsBefore h seen
  | cons s others ih =>
    obtain ⟨hs, hothers⟩ := List.forall_mem_cons.mp hothers
    unfold isModuleName at hs
    split at hs
    · cases hs
    · next c cs htext =>
      rw [Bool.and_eq_true] at hs
      have hdotted : dotted (s :: others) ++ rest =
          '.' :: c :: (cs ++ (dotted others ++ rest)) := by
        simp [dotted, htext]
      have hlength : (dotted (s :: others)).length = 2 + cs.length + (dotted others).length := by
        simp [dotted, htext]
        omega
      have hpart : Token.isNamePart c = true := Token.isNamePart_of_isNameStart hs.1
      have hdot : Token.isNamePart '.' = false := by decide
      rw [hdotted, Token.nameLength, if_neg (by simp [hdot]), if_pos (by simp [hs.1]),
        Token.nameLength, if_pos hpart, nameLength_append hs.2, ih hothers, hlength]
      omega

theorem first?_name {s : String} {others path : List String} {rest : List Char}
    (hs : isModuleName s.toList = true) (hothers : AreNames others)
    (h : (Piece.name path).EndsBefore rest) :
    Pattern.first? ((joinDots (s :: others)).toList ++ rest) =
      some (.name, (joinDots (s :: others)).toList.length) := by
  unfold isModuleName at hs
  split at hs
  · cases hs
  · next c cs htext =>
    rw [Bool.and_eq_true] at hs
    have hname : Pattern.name.length? (c :: (cs ++ (dotted others ++ rest))) =
        some (1 + cs.length + (dotted others).length) := by
      rw [Pattern.length?, if_pos hs.1, nameLength_append hs.2, nameLength_dotted hothers h]
    rw [toList_joinDots_cons, htext, List.append_assoc, List.cons_append, Pattern.first?,
      Pattern.table, List.cons_append, List.findSome?_cons, hname]
    simp only [Option.map_some, List.length_append, List.length_cons]
    congr 2
    omega

/-! ## Numbers -/

/-- The digits of a number. -/
def digits (value : Nat) : List Char := (toString value).toList

theorem digits_eq (value : Nat) : digits value = Nat.toDigits 10 value := by
  change value.repr.toList = _
  exact Nat.toList_repr

theorem isDecimal_of_mem_digits {value : Nat} : ∀ c ∈ digits value, Token.isDecimal c = true :=
  fun _ hc => isDigit_of_mem_toString hc

theorem digits_ne_nil (value : Nat) : digits value ≠ [] := by
  rw [digits_eq]
  exact Nat.toDigits_ne_nil

/-- A text that no digits go on with, and that does not make them those of another base. -/
def EndsDigits (tail : List Char) : Prop :=
  ∀ c ∈ tail.head?, Token.isDecimal c = false ∧ c ≠ '.' ∧ c ≠ 'b' ∧ c ≠ 'x'

theorem EndsDigits.nil : EndsDigits [] := nofun

theorem endsDigits_suffix (s : Suffix) {rest : List Char} (h : Stops rest) :
    EndsDigits (s.spelling ++ rest) := by
  have hboundary : ∀ c ∈ boundaries, Token.isDecimal c = false ∧ c ≠ '.' ∧ c ≠ 'b' ∧ c ≠ 'x' :=
    forall_mem_boundaries.mpr (by decide)
  cases s with
  | none => exact fun c hc => hboundary c (h c hc)
  | _ =>
    rintro _ ⟨⟩
    decide

theorem takeWhile_digits {value : Nat} {tail : List Char} (h : EndsDigits tail) :
    (digits value ++ tail).takeWhile Token.isDecimal = digits value := by
  have htail : tail.takeWhile Token.isDecimal = [] := by
    cases tail with
    | nil => rfl
    | cons c tail => rw [List.takeWhile_cons, if_neg (by simp [(h c rfl).1])]
  rw [List.takeWhile_append_of_pos isDecimal_of_mem_digits, htail, List.append_nil]

theorem dropWhile_digits {value : Nat} {tail : List Char} (h : EndsDigits tail) :
    (digits value ++ tail).dropWhile Token.isDecimal = tail := by
  have htail : tail.dropWhile Token.isDecimal = tail := by
    cases tail with
    | nil => rfl
    | cons c tail => rw [List.dropWhile_cons, if_neg (by simp [(h c rfl).1])]
  rw [List.dropWhile_append_of_pos isDecimal_of_mem_digits, htail]

/-- The digits begin with one of base ten, and the mark of another base does not come next. -/
theorem exists_digits_append (value : Nat) {tail : List Char} (h : EndsDigits tail) :
    ∃ d cs, digits value ++ tail = d :: cs ∧ Token.isDecimal d = true ∧
      ∀ c ∈ cs.head?, c ≠ 'b' ∧ c ≠ 'x' := by
  cases hdigits : digits value with
  | nil => exact absurd hdigits (digits_ne_nil value)
  | cons d ds =>
    have hall : ∀ c ∈ d :: ds, Token.isDecimal c = true := hdigits ▸ isDecimal_of_mem_digits
    refine ⟨d, ds ++ tail, rfl, hall d (.head _), ?_⟩
    cases ds with
    | nil => exact fun c hc => (h c hc).2.2
    | cons d' ds =>
      rintro _ ⟨⟩
      have hd' := hall d' (.tail _ (.head _))
      constructor
      · rintro rfl
        cases hd'
      · rintro rfl
        cases hd'

theorem run?_digits (value : Nat) {tail : List Char} (h : EndsDigits tail) :
    Token.Digits.run? Token.isDecimal (digits value ++ tail) = some (digits value).length := by
  unfold Token.Digits.run?
  rw [takeWhile_digits h]
  split
  · next hlength => exact absurd (List.length_eq_zero_iff.mp hlength) (digits_ne_nil value)
  · rfl

/-- No other form of a number is tried with success before that of whole numbers. -/
theorem length?_eq_none_of_ne_whole (value : Nat) {tail : List Char} (h : EndsDigits tail) :
    ∀ d ∈ Token.Digits.all, d ≠ .whole → d.length? (digits value ++ tail) = none := by
  obtain ⟨d, cs, heq, hd, hcs⟩ := exists_digits_append value h
  have hdot : d ≠ '.' := by
    rintro rfl
    cases hd
  intro form _ hform
  cases form with
  | binary =>
    rw [heq]
    unfold Token.Digits.length?
    split <;> simp_all
  | hexadecimal =>
    rw [heq]
    unfold Token.Digits.length?
    split <;> simp_all
  | fraction =>
    have hrun := run?_digits value h
    simp only [Token.Digits.length?, hrun, Option.bind_eq_bind, Option.bind_some, List.drop_left]
    split
    · next rest => exact absurd rfl (h '.' rfl).2.1
    · rfl
  | bareFraction =>
    rw [heq]
    unfold Token.Digits.length?
    split <;> simp_all
  | whole => exact absurd rfl hform

theorem findSome?_digits {value : Nat} {tail : List Char} (h : EndsDigits tail) :
    Token.Digits.all.findSome? (·.length? (digits value ++ tail)) = some (digits value).length := by
  have hnone := length?_eq_none_of_ne_whole value h
  have hwhole : Token.Digits.length? .whole (digits value ++ tail) = some (digits value).length :=
    run?_digits value h
  simp only [Token.Digits.all, List.forall_mem_cons] at hnone
  obtain ⟨hbinary, hhex, hfraction, hbare, -⟩ := hnone
  rw [Token.Digits.all, List.findSome?_cons, hbinary nofun, List.findSome?_cons, hhex nofun,
    List.findSome?_cons, hfraction nofun, List.findSome?_cons, hbare nofun, List.findSome?_cons,
    hwhole]

theorem atStart_spelling (s : Suffix) {rest : List Char} (h : Stops rest) :
    Suffix.atStart (s.spelling ++ rest) = s := by
  rcases h.eq_nil_or with rfl | ⟨c, hc, rest, rfl⟩
  · cases s <;> rfl
  · simp only [boundaries, List.mem_cons, List.not_mem_nil, or_false] at hc
    rcases hc with rfl | rfl | rfl | rfl | rfl | rfl | rfl | rfl <;> cases s <;> rfl

theorem first?_number (value : Nat) (s : Suffix) {rest : List Char} (h : Stops rest) :
    Pattern.first? (digits value ++ s.spelling ++ rest) =
      some (.number, (digits value ++ s.spelling).length) := by
  have htail := endsDigits_suffix s h
  obtain ⟨d, cs, heq, hd, -⟩ := exists_digits_append value htail
  have hstart : Token.isNameStart d = false := by
    by_contra hstart
    rw [Bool.not_eq_false] at hstart
    have hdigit := Token.not_isDigit_of_isNameStart hstart
    rw [show d.isDigit = true from hd] at hdigit
    cases hdigit
  have hname : Pattern.name.length? (digits value ++ (s.spelling ++ rest)) = none := by
    rw [heq, Pattern.length?, if_neg (by simp [hstart])]
  have hnumber : Pattern.number.length? (digits value ++ (s.spelling ++ rest)) =
      some ((digits value).length + s.spelling.length) := by
    rw [Pattern.length?, findSome?_digits htail]
    simp [atStart_spelling s h]
  rw [List.append_assoc, Pattern.first?, Pattern.table, List.cons_append, List.findSome?_cons,
    hname, List.cons_append, List.findSome?_cons, hnumber, List.length_append]
  rfl

theorem digitsPart_digits {value : Nat} {tail : List Char} (h : EndsDigits tail) :
    Token.Numeral.digitsPart (digits value ++ tail) = digits value := by
  have hdecimal : Token.Numeral.decimalPart (digits value ++ tail) = digits value := by
    unfold Token.Numeral.decimalPart
    rw [takeWhile_digits h, dropWhile_digits h]
    split
    · next rest => exact absurd rfl (h '.' rfl).2.1
    · rfl
  obtain ⟨d, cs, heq, -, hcs⟩ := exists_digits_append value h
  rw [heq] at hdecimal ⊢
  unfold Token.Numeral.digitsPart
  split
  · next heq' =>
    cases heq'
    exact absurd rfl (hcs 'b' rfl).1
  · next heq' =>
    cases heq'
    exact absurd rfl (hcs 'x' rfl).2
  · exact hdecimal

theorem digitsValue_ten {ds : List Char} (h : ∀ c ∈ ds, Token.isDecimal c = true) :
    Token.digitsValue 10 ds = Nat.ofDigitChars 10 ds 0 := by
  refine List.foldl_ext _ _ 0 fun value c hc => ?_
  rw [Token.digitValue, if_pos (h c hc), Nat.mul_comm]

theorem integerValue_digits (value : Nat) : Token.Numeral.integerValue (digits value) = value := by
  obtain ⟨d, cs, heq, -, hcs⟩ := exists_digits_append value .nil
  have hvalue : Token.digitsValue 10 (digits value) = value := by
    rw [digitsValue_ten isDecimal_of_mem_digits, digits_eq]
    exact Nat.ofDigitChars_ten_toDigits
  rw [List.append_nil] at heq
  rw [heq] at hvalue ⊢
  unfold Token.Numeral.integerValue
  split
  · next heq' =>
    cases heq'
    exact absurd rfl (hcs 'b' rfl).1
  · next heq' =>
    cases heq'
    exact absurd rfl (hcs 'x' rfl).2
  · exact hvalue

theorem ofText?_number {value : Nat} {s : Suffix} (hvalue : value < Token.integerBound)
    (hs : s.isFloat = false) :
    Token.Numeral.ofText? (digits value ++ s.spelling) = some ⟨.int value, s⟩ := by
  have htail : EndsDigits s.spelling := by
    simpa using endsDigits_suffix s .nil
  have hsuffix : Suffix.ofText? s.spelling = some s := by
    cases s <;> rfl
  have hdot : '.' ∉ digits value := fun h => absurd (isDecimal_of_mem_digits _ h) (by decide)
  have hnumber : Token.Numeral.value? (digits value) s = some (.int value) := by
    simp only [Token.Numeral.value?]
    rw [if_neg hdot, integerValue_digits, if_neg (Nat.not_le_of_lt hvalue), if_neg (by simp [hs])]
  simp [Token.Numeral.ofText?, digitsPart_digits htail, hsuffix, hnumber]

/-! ## Pieces -/

theorem exists_eq_cons_of_isPath {path : List String} (h : isPath path = true) :
    ∃ s others, path = s :: others ∧ isModuleName s.toList = true ∧ AreNames others := by
  rcases path with _ | ⟨s, _ | ⟨s', others⟩⟩
  · cases h
  · rw [isPath, Bool.and_eq_true] at h
    exact ⟨s, [], rfl, h.1, List.forall_mem_nil _⟩
  · have hall : AreNames (s :: s' :: others) := List.all_eq_true.mp h
    exact ⟨s, s' :: others, rfl, List.forall_mem_cons.mp hall⟩

theorem areNames_of_isPath {path : List String} (h : isPath path = true) : AreNames path := by
  obtain ⟨s, others, rfl, hs, hothers⟩ := exists_eq_cons_of_isPath h
  exact List.forall_mem_cons.mpr ⟨hs, hothers⟩

theorem joinDots_singleton (s : String) : joinDots [s] = s := String.intercalate_singleton

/-- The pattern of a piece takes the piece, and no more of the text. -/
theorem first?_piece {p : Piece} (hp : p.isWritable = true) {rest : List Char}
    (h : p.EndsBefore rest) :
    Pattern.first? (p.text ++ rest) = some (p.pattern, p.text.length) := by
  cases p with
  | name path =>
    obtain ⟨s, others, rfl, hs, hothers⟩ := exists_eq_cons_of_isPath hp
    exact first?_name hs hothers h
  | keyword k =>
    have hname : isModuleName k.spelling.toList = true := by cases k <;> decide
    have hword : (Piece.name [k.spelling]).EndsBefore rest := .inl h
    have hfirst := first?_name hname (List.forall_mem_nil _) hword
    rwa [joinDots_singleton] at hfirst
  | mark m =>
    -- Nothing before the two opening marks begins with one of them.
    by_cases hparen : m = .openParen
    · subst hparen
      rfl
    by_cases hbracket : m = .openBracket
    · subst hbracket
      rfl
    · refine first?_mark m ?_
      unfold Piece.EndsBefore at h
      split at h <;> simp_all
  | number value s => exact first?_number value s h
  | lineEnd => rfl

theorem isSpace_of_isNamePart {c : Char} (h : Token.isNamePart c = true) :
    Token.isSpace c = false := by
  by_contra hspace
  simp only [Token.isSpace, Bool.not_eq_false, Bool.or_eq_true, beq_iff_eq] at hspace
  rcases hspace with (rfl | rfl) | rfl <;> cases h

/-- No piece begins with a blank. -/
theorem isSpace_of_mem_head?_text {p : Piece} (hp : p.isWritable = true) (rest : List Char) :
    ∀ c ∈ (p.text ++ rest).head?, Token.isSpace c = false := by
  intro c hc
  cases p with
  | name path =>
    obtain ⟨s, others, rfl, hs, -⟩ := exists_eq_cons_of_isPath hp
    unfold isModuleName at hs
    split at hs
    · cases hs
    · next c' cs htext =>
      rw [Piece.text, toList_joinDots_cons, htext] at hc
      cases hc
      have hstart := (Bool.and_eq_true_iff.mp hs).1
      exact isSpace_of_isNamePart (Token.isNamePart_of_isNameStart hstart)
  | keyword k => cases k <;> cases hc <;> rfl
  | mark m => cases m <;> cases hc <;> rfl
  | number value s =>
    obtain ⟨d, cs, heq, hd, -⟩ := exists_digits_append value .nil
    have htext : (Piece.number value s).text = d :: (cs ++ s.spelling) := by
      rw [← List.cons_append, ← heq, List.append_nil]
      rfl
    rw [htext] at hc
    cases hc
    exact isSpace_of_isNamePart (by rw [Token.isNamePart, hd, Bool.or_true])
  | lineEnd =>
    cases hc
    rfl

theorem first?_blank {rest : List Char} (h : ∀ c ∈ rest.head?, Token.isSpace c = false) :
    Pattern.first? (' ' :: rest) = some (.space, 1) := by
  have hrun : Pattern.space.length? (' ' :: rest) = some 1 := by
    have hrest : rest.takeWhile Token.isSpace = [] := by
      cases rest with
      | nil => rfl
      | cons c rest => rw [List.takeWhile_cons, if_neg (by simp [h c rfl])]
    rw [Pattern.length?, Token.Digits.run?, List.takeWhile_cons, if_pos (by decide), hrest]
    rfl
  have hname : Pattern.name.length? (' ' :: rest) = none := rfl
  have hnumber : Pattern.number.length? (' ' :: rest) = none := rfl
  rw [Pattern.first?, Pattern.table, List.cons_append, List.findSome?_cons, hname,
    List.cons_append, List.findSome?_cons, hnumber, List.cons_append, List.findSome?_cons, hrun]
  rfl

/-- A piece that follows another one at once, unless the other is a leading one. -/
theorem boundary_of_joins {p q : Piece} (h : p.joins q = true) (hp : p.isLeading = false) :
    (∃ c ∈ boundaries, ∃ cs, q.text = c :: cs) ∨
      ((∃ path, p = .name path) ∧ q = .mark .dot) := by
  rw [Piece.joins, hp, Bool.false_or, Bool.or_eq_true] at h
  rcases h with h | h
  · left
    unfold Piece.isTrailing at h
    split at h
    · exact ⟨')', by decide, [], rfl⟩
    · exact ⟨']', by decide, [], rfl⟩
    · exact ⟨',', by decide, [], rfl⟩
    · exact ⟨':', by decide, [], rfl⟩
    · exact ⟨'\n', by decide, [], rfl⟩
    · cases h
  · unfold Piece.isBound at h
    split at h
    · exact .inl ⟨'(', by decide, [], rfl⟩
    · exact .inr ⟨⟨_, rfl⟩, rfl⟩
    · exact .inl ⟨'[', by decide, [], rfl⟩
    · cases h

theorem Piece.EndsBefore.of_stops {p : Piece} {rest : List Char} (h : Stops rest) :
    p.EndsBefore rest := by
  unfold Piece.EndsBefore
  split
  · trivial
  · trivial
  · trivial
  · exact .inl h
  · exact h

/-- What comes after a piece in a layout does not lengthen it. -/
theorem endsBefore_layout (p : Piece) (rest : List Piece) :
    p.EndsBefore (textOf (gap p rest.head? ++ layout rest)) := by
  induction rest generalizing p with
  | nil => exact .of_stops .nil
  | cons q rest ih =>
    cases hleading : p.isLeading with
    | true =>
      unfold Piece.isLeading at hleading
      split at hleading
      · trivial
      · trivial
      · trivial
      · cases hleading
    | false =>
      rw [List.head?_cons, gap]
      split
      · next hjoins =>
        rcases boundary_of_joins hjoins hleading with ⟨c, hc, cs, htext⟩ | ⟨⟨path, rfl⟩, rfl⟩
        · refine .of_stops ?_
          rw [List.nil_append, layout, textOf_cons, Piece.lexeme, htext]
          exact .cons hc _
        · exact .inr ⟨_, rfl, ih (.mark .dot)⟩
      · exact .of_stops (.cons (by decide) _)

theorem lexemesFrom_skip (done : List Lexeme) (cs rest : List Char) :
    Token.lexemesFrom done cs.length (cs ++ rest) = Token.lexemesFrom done 0 rest := by
  induction cs with
  | nil => rfl
  | cons c cs ih => exact ih

theorem lexemesFrom_cons {l : Lexeme} {rest : List Char}
    (h : Pattern.first? (l.text ++ rest) = some (l.pattern, l.text.length)) (done : List Lexeme) :
    Token.lexemesFrom done 0 (l.text ++ rest) = Token.lexemesFrom (l :: done) 0 rest := by
  obtain ⟨pattern, _ | ⟨c, cs⟩⟩ := l
  · exact absurd (Pattern.first?_pos h) (Nat.lt_irrefl 0)
  · dsimp only [List.cons_append] at h ⊢
    rw [Token.lexemesFrom, h]
    dsimp only
    rw [← List.cons_append, List.take_left, List.length_cons, Nat.add_sub_cancel, lexemesFrom_skip]

theorem lexemesFrom_layout {ps : List Piece} (h : ∀ p ∈ ps, p.isWritable = true)
    (done : List Lexeme) :
    Token.lexemesFrom done 0 (textOf (layout ps)) = (done.reverse ++ layout ps, []) := by
  induction ps generalizing done with
  | nil => simp [layout, textOf, Token.lexemesFrom]
  | cons p rest ih =>
    obtain ⟨hp, hrest⟩ := List.forall_mem_cons.mp h
    have hfirst := first?_piece hp (endsBefore_layout p rest)
    rw [layout, textOf_cons, lexemesFrom_cons hfirst, textOf_append]
    cases rest with
    | nil => simp [layout, textOf, gap, Token.lexemesFrom]
    | cons q rest =>
      rw [List.head?_cons, gap]
      split
      · change Token.lexemesFrom _ 0 (textOf (layout (q :: rest))) = _
        rw [ih hrest]
        simp
      · have hq := isSpace_of_mem_head?_text (List.forall_mem_cons.mp hrest).1
        have hblank := first?_blank (hq (textOf (gap q rest.head? ++ layout rest)))
        change Token.lexemesFrom _ 0 (blank.text ++ textOf (layout (q :: rest))) = _
        rw [lexemesFrom_cons hblank, ih hrest]
        simp

/-- The scanner cuts the text of pieces as the layout put it together. -/
theorem lexemes_layout {ps : List Piece} (h : ∀ p ∈ ps, p.isWritable = true) :
    Token.lexemes (textOf (layout ps)) = (layout ps, []) :=
  lexemesFrom_layout h []

/-! ## Tokens -/

/-- A token that was read from a piece. -/
structure Piece.IsReadAs (p : Piece) (t : Token) : Prop where
  shape : t.shape = p.shape
  text : t.text = String.ofList p.text

theorem joinDots_dotted_ne {s s' : String} {others : List String} (k : Keyword) :
    joinDots (s :: s' :: others) ≠ k.spelling := by
  intro h
  have hdot : '.' ∈ k.spelling.toList := by
    rw [← h, toList_joinDots_cons]
    simp [dotted]
  cases k <;> revert hdot <;> decide

/-- A name that is not reserved stands for its path. -/
theorem shapeOfName_joinDots {path : List String} (h : isPath path = true) :
    Token.shapeOfName (joinDots path).toList = .identifier path := by
  obtain ⟨s, others, rfl, -, -⟩ := exists_eq_cons_of_isPath h
  have hword : Keyword.ofText? (joinDots (s :: others)) = none := by
    cases others with
    | nil =>
      rw [isPath, Bool.and_eq_true, Option.isNone_iff_eq_none] at h
      rw [joinDots_singleton, h.2]
    | cons s' others =>
      refine List.find?_eq_none.mpr fun k _ hk => ?_
      exact joinDots_dotted_ne k (beq_iff_eq.mp hk).symm
  have hpath : Token.segments (joinDots (s :: others)).toList = s :: others :=
    splitDots_joinDots (List.cons_ne_nil _ _) fun s' hs' =>
      ModulePath.notMem_of_isModuleName (by decide) (areNames_of_isPath h s' hs')
  rw [Token.shapeOfName, String.ofList_toList, hword, hpath]

theorem shapeOfName_keyword (k : Keyword) :
    Token.shapeOfName k.spelling.toList = .keyword k := by
  cases k <;> decide

theorem shape?_piece {p : Piece} (hp : p.isWritable = true) {done : List Token}
    (hline : Token.afterTerminator done = true → p ≠ .lineEnd) :
    p.lexeme.shape? done = .ok (some p.shape) := by
  cases p with
  | name path => exact congrArg (Except.ok ∘ some) (shapeOfName_joinDots hp)
  | keyword k => exact congrArg (Except.ok ∘ some) (shapeOfName_keyword k)
  | mark m => rfl
  | number value s =>
    rw [Piece.isWritable, Bool.and_eq_true, decide_eq_true_eq, Bool.not_eq_true'] at hp
    have hnumber : Token.Numeral.ofText? (Piece.number value s).text = some ⟨.int value, s⟩ :=
      ofText?_number hp.1 hp.2
    simp only [Lexeme.shape?, Piece.lexeme, Piece.pattern, hnumber]
    rfl
  | lineEnd =>
    cases hdone : Token.afterTerminator done with
    | true => exact absurd rfl (hline hdone)
    | false =>
      change Except.ok (if Token.afterTerminator done = true then _ else _) = _
      rw [hdone]
      rfl

theorem afterTerminator_cons {p : Piece} {t : Token} (h : p.IsReadAs t) (done : List Token) :
    Token.afterTerminator (t :: done) = decide (p = .lineEnd) := by
  rw [Token.afterTerminator, h.shape]
  cases p <;> rfl

/-- The tokens of pieces, one for each. -/
theorem assemble_layout (file : String) {ps : List Piece} {done : List Token} {fresh : Bool}
    (h : lineAfter (Token.afterTerminator done) ps = some fresh) (offset : Nat) :
    ∃ ts offset', Token.assemble file done offset (layout ps) = .ok (ts.reverse ++ done, offset') ∧
      List.Forall₂ Piece.IsReadAs ps ts := by
  induction ps generalizing done offset with
  | nil => exact ⟨[], offset, rfl, .nil⟩
  | cons p rest ih =>
    obtain ⟨hp, hline, hrest⟩ := lineAfter_cons_eq_some h
    let t : Token := ⟨p.shape, String.ofList p.text, ⟨offset, offset + Text.byteLength p.text⟩⟩
    have ht : p.IsReadAs t := ⟨rfl, rfl⟩
    rw [← afterTerminator_cons ht done] at hrest
    have hgap : ∀ offset, ∃ offset', Token.assemble file (t :: done) offset
        (gap p rest.head? ++ layout rest) =
          Token.assemble file (t :: done) offset' (layout rest) := by
      intro offset
      unfold gap
      split
      · exact ⟨offset, rfl⟩
      · split
        · exact ⟨offset, rfl⟩
        · exact ⟨_, rfl⟩
    obtain ⟨offset', hoffset⟩ := hgap (offset + Text.byteLength p.text)
    obtain ⟨ts, last, hts, hread⟩ := ih hrest offset'
    refine ⟨t :: ts, last, ?_, .cons ht hread⟩
    rw [layout, Token.assemble, shape?_piece hp hline]
    change Token.assemble file (t :: done) (offset + Text.byteLength p.text) _ = _
    rw [hoffset, hts]
    simp

/-- The scanner reads a text of pieces back, one token for each, and the end of the file. -/
theorem scan_write (file : String) {ps : List Piece} {fresh : Bool}
    (h : lineAfter true ps = some fresh) :
    ∃ (ts : List Token) (eof : Token),
      Token.Buffer.scan file (write ps) = .ok ⟨file, ts ++ [eof]⟩ ∧
        List.Forall₂ Piece.IsReadAs ps ts ∧ eof.kind = .endOfFile := by
  have hfresh : lineAfter (Token.afterTerminator []) ps = some fresh := h
  obtain ⟨ts, offset, hts, hread⟩ := assemble_layout file hfresh 0
  refine ⟨ts, ⟨.endOfFile, "EOF", ⟨offset, offset⟩⟩, ?_, hread, rfl⟩
  rw [Token.Buffer.scan, write, String.toList_ofList, lexemes_layout (isWritable_of_lineAfter h)]
  simp [hts]

end FrontEnd.Printing
