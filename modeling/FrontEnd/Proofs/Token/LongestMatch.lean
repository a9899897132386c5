import FrontEnd.Proofs.Token.NumberForms

/-!
# The longest match

The order of the patterns makes the first that takes anything the one that takes most: patterns that
start alike are comments of two kinds, marks that begin with one another, of which the longer ones
come first, and a number or a comment before a mark of one character. So each lexeme of a text is
the longest that could stand there.
-/

namespace FrontEnd.Token

variable {text u v rest : List Char} {n : Nat}

/-! ## Patterns -/

theorem Pattern.measures (p : Pattern) : Measures p.language p.length? := by
  cases p with
  | name => exact measures_name
  | number => exact measures_number
  | space => exact measures_someOf isSpace
  | lineComment => exact measures_lineComment
  | blockComment => exact measures_blockComment
  | terminator =>
    constructor
    · intro text n h
      cases text with
      | nil => cases h
      | cons c cs =>
        rw [Pattern.length?] at h
        split at h
        · next hc =>
          cases h
          exact ⟨[c], ⟨c, hc, rfl⟩, ⟨cs, rfl⟩, rfl⟩
        · cases h
    · rintro text _ ⟨c, hc, rfl⟩ ⟨rest, rfl⟩
      exact ⟨1, if_pos hc, Nat.le_refl 1⟩
  | mark m =>
    constructor
    · intro text n h
      rw [Pattern.length?] at h
      split at h
      · next hstarts =>
        cases h
        exact ⟨m.spelling, rfl, List.isPrefixOf_iff_prefix.mp hstarts, rfl⟩
      · cases h
    · rintro text _ rfl h
      exact ⟨_, if_pos (List.isPrefixOf_iff_prefix.mpr h), Nat.le_refl _⟩

/-! ## The table -/

namespace Pattern

/-- The characters that what a pattern takes may start with. -/
def opens : Pattern → Char → Bool
  | name, c => isNameStart c
  | number, c => isDecimal c || c == '.'
  | space, c => isSpace c
  | lineComment, c | blockComment, c => c == '/'
  | terminator, c => isTerminator c
  | mark m, c => m.spelling.head? == some c

theorem opens_of_length? {p : Pattern} (h : p.length? text = some n) :
    ∃ c cs, text = c :: cs ∧ p.opens c = true := by
  obtain ⟨u, hu, ⟨rest, rfl⟩, rfl⟩ := p.measures.sound h
  cases p with
  | name =>
    obtain ⟨c, w, rfl, hc, -⟩ := mem_oneOf_mul.mp hu
    exact ⟨c, w ++ rest, rfl, hc⟩
  | space =>
    obtain ⟨c, w, rfl, hc, -⟩ := mem_oneOf_mul.mp hu
    exact ⟨c, w ++ rest, rfl, hc⟩
  | lineComment =>
    obtain ⟨w, -, rfl⟩ := mem_just_mul.mp hu
    exact ⟨'/', _, rfl, rfl⟩
  | blockComment =>
    obtain ⟨body, rfl, -⟩ := hu
    exact ⟨'/', _, rfl, rfl⟩
  | terminator =>
    obtain ⟨c, hc, rfl⟩ := hu
    exact ⟨c, rest, rfl, hc⟩
  | mark m =>
    cases hu
    obtain ⟨c, cs, hspelling⟩ := List.exists_cons_of_ne_nil m.spelling_ne_nil
    refine ⟨c, cs ++ rest, by rw [hspelling]; rfl, ?_⟩
    rw [opens, hspelling]
    exact beq_self_eq_true _
  | number =>
    obtain ⟨d, s, digits, hd, rfl⟩ := hu
    obtain ⟨c, cs, rfl, hc⟩ := Digits.exists_cons_of_mem hd
    exact ⟨c, _, rfl, hc⟩

/-- The patterns that take other things than marks. -/
def plain : List Pattern := [name, number, space, lineComment, blockComment, terminator]

/-- No name starts with a digit. -/
theorem isDecimal_of_isNameStart {c : Char} (h : isNameStart c = true) : isDecimal c = false := by
  by_contra hc
  simp only [isDecimal, isNameStart, Bool.or_eq_true, Bool.and_eq_true, decide_eq_true_eq,
    beq_iff_eq, Bool.not_eq_false] at h hc
  rcases h with (h | h) | rfl
  · exact absurd (Char.le_trans h.1 hc.2) (by decide)
  · exact absurd (Char.le_trans h.1 hc.2) (by decide)
  · exact absurd hc.2 (by decide)

/-- What is neither a name nor a number nor a mark starts with one of a few characters. -/
theorem mem_of_opens {p : Pattern} (hp : p ∈ plain) (hname : p ≠ name) (hnumber : p ≠ number)
    {c : Char} (h : p.opens c = true) : c ∈ [' ', '\t', '\r', '/', '\n', ';'] := by
  simp only [plain, List.mem_cons, List.not_mem_nil, or_false] at hp
  rcases hp with rfl | rfl | rfl | rfl | rfl | rfl
  · exact absurd rfl hname
  · exact absurd rfl hnumber
  all_goals
    simp only [opens, isSpace, isTerminator, Bool.or_eq_true, beq_iff_eq] at h
    simp only [List.mem_cons, List.not_mem_nil, or_false]
    tauto

/-- Only comments share the character that they start with. -/
theorem comments_of_opens {p q : Pattern} (hp : p ∈ plain) (hq : q ∈ plain) (hlater : q ≠ name)
    (hne : p ≠ q) (hordered : q = number → p = name) {c : Char} (h : p.opens c = true)
    (h' : q.opens c = true) :
    (p = lineComment ∧ q = blockComment) ∨ (p = blockComment ∧ q = lineComment) := by
  by_cases hnumber : q = number
  · obtain rfl := hordered hnumber
    subst hnumber
    have hdecimal := isDecimal_of_isNameStart h
    simp only [opens, hdecimal, Bool.false_or, beq_iff_eq] at h'
    subst h'
    cases h
  · have hc := mem_of_opens hq hlater hnumber h'
    have hall : ∀ p ∈ plain, ∀ q ∈ plain, p ≠ q →
        ([' ', '\t', '\r', '/', '\n', ';'].any fun c => p.opens c && q.opens c) = true →
        (p = lineComment ∧ q = blockComment) ∨ (p = blockComment ∧ q = lineComment) := by decide
    exact hall p hp q hq hne (List.any_eq_true.mpr ⟨c, hc, by rw [h, h']; rfl⟩)

/-- No comment is of both kinds. -/
theorem length?_blockComment_eq_none (h : lineComment.length? text = some n) :
    blockComment.length? text = none := by
  unfold length? at h
  split at h <;> try cases ‹lineComment = _›
  · rfl
  · cases h

/-- A mark of two characters or more starts as nothing else does. -/
theorem length?_eq_none_of_mark {m : Mark} {p : Pattern} (hp : p ∈ plain)
    (hm : 2 ≤ m.spelling.length) (h : m.spelling <+: text) : p.length? text = none := by
  rw [Option.eq_none_iff_forall_ne_some]
  intro n hn
  obtain ⟨c, cs, rfl, hc⟩ := opens_of_length? hn
  have hhead : m.spelling.head? = some c := by
    obtain ⟨d, ds, hspelling⟩ := List.exists_cons_of_ne_nil m.spelling_ne_nil
    rw [hspelling] at h ⊢
    rw [(List.cons_prefix_cons.mp h).1]
    rfl
  have hall : ∀ m ∈ Mark.all, 2 ≤ m.spelling.length → ∀ p ∈ plain,
      m.spelling.head?.any p.opens = true →
      m = .slashAssign ∧ (p = lineComment ∨ p = blockComment) := by decide
  obtain ⟨rfl, hcomment⟩ := hall m m.mem_all hm p hp (by rw [hhead]; exact hc)
  obtain ⟨rest, hrest⟩ := h
  rw [← hrest] at hn
  rcases hcomment with rfl | rfl <;> cases hn

theorem pairwise_marks :
    Mark.all.Pairwise fun m m' =>
      m.spelling <+: m'.spelling → m'.spelling.length ≤ m.spelling.length := by
  decide

/-- The first pattern of the table that takes something takes as much as any other. -/
theorem pairwise_table (text : List Char) : table.Pairwise fun p q => ∀ n n',
    p.length? text = some n → q.length? text = some n' → n' ≤ n := by
  have hmark : ∀ {m : Mark} {n : Nat}, (mark m).length? text = some n →
      m.spelling <+: text ∧ n = m.spelling.length := by
    intro m n h
    rw [length?] at h
    split at h
    · next hstarts =>
      cases h
      exact ⟨List.isPrefixOf_iff_prefix.mp hstarts, rfl⟩
    · cases h
  refine List.pairwise_append.mpr ⟨?_, List.pairwise_map.mpr ?_, ?_⟩
  · have hlater : plain.Pairwise fun p q => q ≠ name ∧ p ≠ q ∧ (q = number → p = name) ∧
        ¬(p = blockComment ∧ q = lineComment) ∧ p ∈ plain ∧ q ∈ plain := by decide
    refine hlater.imp fun {p q} hpq n n' h h' => ?_
    obtain ⟨hname, hne, hordered, hcomments, hp, hq⟩ := hpq
    obtain ⟨c, cs, rfl, hc⟩ := opens_of_length? h
    obtain ⟨c', cs', heq, hc'⟩ := opens_of_length? h'
    cases heq
    rcases comments_of_opens hp hq hname hne hordered hc hc' with ⟨rfl, rfl⟩ | hother
    · rw [length?_blockComment_eq_none h] at h'
      cases h'
    · exact absurd hother hcomments
  · refine pairwise_marks.imp fun {m m'} hmm n n' h h' => ?_
    obtain ⟨hstarts, rfl⟩ := hmark h
    obtain ⟨hstarts', rfl⟩ := hmark h'
    exact length_le_of_prefixes hstarts hstarts' hmm
  · intro p hp q hq n n' h h'
    obtain ⟨m, -, rfl⟩ := List.mem_map.mp hq
    obtain ⟨hstarts, rfl⟩ := hmark h'
    by_cases hlong : 2 ≤ m.spelling.length
    · rw [length?_eq_none_of_mark hp hlong hstarts] at h
      cases h
    · have hpos := length?_pos h
      omega

/-- No pattern takes more than the first that takes something. -/
theorem length_le_of_first? {p q : Pattern} (h : first? text = some (p, n)) (hq : q ∈ table)
    (hv : v ∈ q.language) (hstarts : v <+: text) : v.length ≤ n := by
  obtain ⟨k, hk, hle⟩ := q.measures.greatest hv hstarts
  have hpairwise : table.Pairwise fun p q => ∀ b b' : Pattern × Nat,
      (p.length? text).map (p, ·) = some b → (q.length? text).map (q, ·) = some b' → b'.2 ≤ b.2 := by
    refine (pairwise_table text).imp fun {p q} hpq b b' hb hb' => ?_
    obtain ⟨n, hn, rfl⟩ := Option.map_eq_some_iff.mp hb
    obtain ⟨n', hn', rfl⟩ := Option.map_eq_some_iff.mp hb'
    exact hpq n n' hn hn'
  obtain ⟨b, hb, hkn⟩ := exists_findSome?_of_pairwise hpairwise hq (b := (q, k)) (by rw [hk]; rfl)
  obtain rfl := Option.some.inj (hb.symm.trans h)
  exact Nat.le_trans hle hkn

/-- Where a pattern takes nothing, no text of its language stands. -/
theorem not_prefix_of_length? {p : Pattern} (h : p.length? text = none) (hv : v ∈ p.language) :
    ¬v <+: text := by
  intro hstarts
  obtain ⟨k, hk, -⟩ := p.measures.greatest hv hstarts
  rw [h] at hk
  cases hk

end Pattern

/-- The lexeme stands at the start of a text. Its pattern is the first of the table with a text of its
language there, and no pattern has a longer one there. -/
structure Lexeme.IsLongest (remainder : List Char) (l : Lexeme) : Prop where
  isPrefix : l.text <+: remainder
  mem : l.text ∈ l.pattern.language
  first : ∃ earlier later, Pattern.table = earlier ++ l.pattern :: later ∧
    ∀ q ∈ earlier, ∀ v ∈ q.language, ¬v <+: remainder
  longest : ∀ q ∈ Pattern.table, ∀ v ∈ q.language, v <+: remainder → v.length ≤ l.text.length

theorem Lexeme.isLongest {l : Lexeme}
    (h : Pattern.first? (l.text ++ rest) = some (l.pattern, l.text.length)) :
    l.IsLongest (l.text ++ rest) where
  isPrefix := List.prefix_append l.text rest
  mem := by
    obtain ⟨u, hu, hstarts, hlength⟩ := l.pattern.measures.sound (Pattern.length?_of_first? h)
    have heq : u = l.text := by
      rw [List.prefix_iff_eq_take.mp hstarts, hlength, List.take_left]
    rwa [heq] at hu
  first := by
    obtain ⟨earlier, q, later, htable, hq, hnone⟩ := List.findSome?_eq_some_iff.mp h
    obtain ⟨k, -, heq⟩ := Option.map_eq_some_iff.mp hq
    cases heq
    exact ⟨earlier, later, htable, fun q hq v hv =>
      Pattern.not_prefix_of_length? (Option.map_eq_none_iff.mp (hnone q hq)) hv⟩
  longest q hq v hv hstarts := Pattern.length_le_of_first? h hq hv hstarts

theorem Cuts.exists_isLongest {ls : List Lexeme} (h : Cuts text ls rest) {before after : List Lexeme}
    {l : Lexeme} (hls : ls = before ++ l :: after) :
    ∃ remainder, text = before.flatMap Lexeme.text ++ remainder ∧ l.IsLongest remainder := by
  induction h generalizing before with
  | done | stuck => cases List.append_eq_nil_iff.mp hls.symm |>.2
  | @lexeme l' text rest ls first others ih =>
    cases before with
    | nil =>
      cases hls
      exact ⟨l.text ++ text, rfl, l.isLongest first⟩
    | cons l'' before =>
      obtain ⟨rfl, hothers⟩ := List.cons.inj hls
      obtain ⟨remainder, htext, hlongest⟩ := ih hothers
      exact ⟨remainder, by rw [List.flatMap_cons, List.append_assoc, htext], hlongest⟩

/-- **The first match is the longest.** Each lexeme of a source is, where it starts, the text of the
first pattern that matches there, and no pattern of the table matches more: no later one, and no number
of other digits or with another suffix. Lexemes go on until no pattern matches. -/
theorem lexemes_longest (source : String) :
    (∀ before l after, (lexemes source.toList).1 = before ++ l :: after → ∃ remainder,
      source.toList = before.flatMap Lexeme.text ++ remainder ∧ l.IsLongest remainder) ∧
    ∀ p ∈ Pattern.table, ∀ v ∈ p.language, ¬v <+: (lexemes source.toList).2 := by
  have hcuts := cuts_lexemes source.toList
  refine ⟨fun before l after hls => hcuts.exists_isLongest hls, fun p hp v hv => ?_⟩
  refine Pattern.not_prefix_of_length? ?_ hv
  by_cases hrest : (lexemes source.toList).2 = []
  · rw [hrest, Option.eq_none_iff_forall_ne_some]
    intro n hn
    obtain ⟨c, cs, hnil, -⟩ := Pattern.opens_of_length? hn
    cases hnil
  · exact Pattern.first?_eq_none.mp (hcuts.first?_rest hrest) p hp

theorem lexemes_longest_shift :
    let before : List Lexeme := [⟨.name, ['x']⟩, ⟨.mark .shiftLeftAssign, ['<', '<', '=']⟩]
    let literal : Lexeme := ⟨.number, ['0', 'x', '1', 'f', '3', '2', 'i', '8']⟩
    let after : List Lexeme := [⟨.number, ['.', '5']⟩, ⟨.mark .dot, ['.']⟩]
    (lexemes "x<<=0x1f32i8.5.".toList).1 = before ++ literal :: after ∧
      ∃ remainder, "x<<=0x1f32i8.5.".toList = before.flatMap Lexeme.text ++ remainder ∧
        literal.IsLongest remainder := by
  intro before literal after
  have hlexemes : (lexemes "x<<=0x1f32i8.5.".toList).1 = before ++ literal :: after := by
    decide +kernel
  exact ⟨hlexemes, (lexemes_longest _).1 before literal after hlexemes⟩

end FrontEnd.Token
