import FrontEnd.Proofs.Token.NumberForms
import FrontEnd.Token.Scan
import Mathlib.Data.Nat.Digits.Defs

/-!
# The values of literals

A literal is taken apart twice: the pattern of numbers finds its digits and its suffix at the start
of a text, and the value is read from what the pattern took. Both find the same parts. An integer
is out of range exactly if the value of its digits in their base does not fit 64 bits, however many
of them there are; otherwise the token holds that value. A literal with a point is never refused.
-/

namespace FrontEnd.Token

variable {text rest remainder digits : List Char} {n : Nat} {d : Digits} {s : Suffix}

/-- The parts in which the pattern of numbers takes the start of a text: the first form found there,
its digits, and the first suffix found after them. -/
structure Splits (remainder : List Char) (d : Digits) (digits : List Char) (s : Suffix) : Prop where
  first : ∃ earlier later, Digits.all = earlier ++ d :: later ∧
    ∀ d' ∈ earlier, d'.length? remainder = none
  isPrefix : digits <+: remainder
  length : d.length? remainder = some digits.length
  suffix : s = Suffix.atStart (remainder.drop digits.length)

/-- The base in which digits are read that have no point. -/
def Digits.base : Digits → Nat
  | binary => 2
  | hexadecimal => 16
  | fraction | bareFraction | whole => 10

/-- The value of digits of a form, behind its front: the last one counts once, each other one as
often as the base says more. -/
def Digits.valueOf (d : Digits) (digits : List Char) : Nat :=
  Nat.ofDigits d.base ((digits.drop d.front.length).map digitValue).reverse

theorem digitsValue_eq_ofDigits (base : Nat) (ds : List Char) :
    digitsValue base ds = Nat.ofDigits base (ds.map digitValue).reverse := by
  induction ds using List.reverseRecOn with
  | nil => rfl
  | append_singleton ds c ih =>
    rw [List.map_append, List.reverse_append, List.map_singleton, List.reverse_singleton,
      List.singleton_append, Nat.ofDigits_cons, ← ih]
    show List.foldl _ 0 (ds ++ [c]) = _
    rw [List.foldl_append]
    show digitsValue base ds * base + digitValue c = _
    rw [Nat.mul_comm, Nat.add_comm]

/-- What the pattern of numbers takes, it takes in parts. -/
theorem exists_splits (h : Pattern.number.length? remainder = some n) :
    ∃ d digits s, Splits remainder d digits s ∧ n = (digits ++ s.spelling).length ∧
      digits ++ s.spelling <+: remainder := by
  obtain ⟨k, hk, h⟩ := Option.bind_eq_some_iff.mp h
  obtain ⟨earlier, d, later, hall, hd, hnone⟩ := List.findSome?_eq_some_iff.mp hk
  obtain ⟨digits, -, ⟨rest, rfl⟩, rfl⟩ := (Digits.measures d).sound hd
  cases h
  rw [List.drop_left]
  refine ⟨d, digits, Suffix.atStart rest, ⟨⟨earlier, later, hall, hnone⟩,
    List.prefix_append digits rest, hd, by rw [List.drop_left]⟩, List.length_append.symm, ?_⟩
  exact (List.prefix_append_right_inj digits).mpr (Suffix.atStart_prefix rest)

namespace Splits

theorem mem (h : Splits remainder d digits s) : digits ∈ d.language := by
  obtain ⟨u, hu, hprefix, hlength⟩ := (Digits.measures d).sound h.length
  have heq : u = digits := by
    rw [List.prefix_iff_eq_take.mp hprefix, hlength, ← List.prefix_iff_eq_take.mp h.isPrefix]
  rwa [heq] at hu

theorem prefix_remainder (h : Splits remainder d digits s) : digits ++ s.spelling <+: remainder := by
  obtain ⟨rest, rfl⟩ := h.isPrefix
  have hs := h.suffix
  rw [List.drop_left] at hs
  rw [hs]
  exact (List.prefix_append_right_inj digits).mpr (Suffix.atStart_prefix rest)

/-- The digits do not go on with the suffix. -/
theorem digit_head (h : Splits remainder d digits s) : ∀ c ∈ s.spelling.head?, d.digit c = false := by
  intro c hc
  by_contra hdigit
  have hmem := Digits.append_suffix_mem (s := s) h.mem (by rwa [Bool.not_eq_false] at hdigit) hc
  obtain ⟨k, hk, hle⟩ := (Digits.measures d).greatest hmem h.prefix_remainder
  obtain rfl := Option.some.inj (hk.symm.trans h.length)
  rw [List.length_append] at hle
  have hnil : s.spelling = [] := List.eq_nil_of_length_eq_zero (by omega)
  rw [hnil] at hc
  cases hc

/-- What floating suffixes start with is a digit in base sixteen. -/
theorem isFloat_of_hexadecimal (h : Splits remainder .hexadecimal digits s) : s.isFloat = false := by
  have hhead := h.digit_head
  cases s with
  | f | f32 | f64 => exact absurd (hhead 'f' rfl) (by decide)
  | _ => rfl

/-- Digits in base ten, with or without a point, hold no mark of another base. -/
theorem ne_mark (h : Splits remainder d digits s) (hbinary : d ≠ .binary) (hhex : d ≠ .hexadecimal) :
    ∀ c ∈ digits ++ s.spelling, c ≠ 'b' ∧ c ≠ 'x' := by
  have hspelling : ∀ c ∈ s.spelling, c ≠ 'b' ∧ c ≠ 'x' := by
    clear h
    cases s <;> simp [Suffix.spelling]
  have hdecimal : ∀ c, isDecimal c = true → c ≠ 'b' ∧ c ≠ 'x' := by
    intro c hc
    constructor <;> rintro rfl <;> exact absurd hc (by decide)
  have hmem := h.mem
  refine List.forall_mem_append.mpr ⟨fun c hc => ?_, hspelling⟩
  cases d with
  | binary => exact absurd rfl hbinary
  | hexadecimal => exact absurd rfl hhex
  | whole => exact hdecimal c ((mem_someOf.mp hmem).2 c hc)
  | fraction =>
    obtain ⟨w, places, rfl, ⟨-, hw⟩, hplaces⟩ := Digits.mem_fraction.mp hmem
    rcases List.mem_append.mp hc with hc | hc
    · exact hdecimal c (hw c hc)
    · rcases List.mem_cons.mp hc with rfl | hc
      · decide
      · exact hdecimal c (hplaces c hc)
  | bareFraction =>
    obtain ⟨ds, hds, rfl⟩ := mem_just_mul.mp hmem
    rcases List.mem_cons.mp hc with rfl | hc
    · decide
    · exact hdecimal c ((mem_someOf.mp hds).2 c hc)

/-- The digits are found again in the text of the literal. -/
theorem digitsPart_eq (h : Splits remainder d digits s) :
    Numeral.digitsPart (digits ++ s.spelling) = digits := by
  have hmem := h.mem
  have hhead := h.digit_head
  have hplain : d ≠ .binary → d ≠ .hexadecimal → Numeral.digitsPart (digits ++ s.spelling) =
      Numeral.decimalPart (digits ++ s.spelling) := by
    intro hbinary hhex
    have hmarks := h.ne_mark hbinary hhex
    unfold Numeral.digitsPart
    split
    · next heq =>
      rw [heq] at hmarks
      exact absurd rfl (hmarks 'b' (by simp)).1
    · next heq =>
      rw [heq] at hmarks
      exact absurd rfl (hmarks 'x' (by simp)).2
    · rfl
  have hdot : ∀ c ∈ s.spelling.head?, c ≠ '.' := by
    intro c hc
    cases s <;> cases hc <;> decide
  cases d with
  | binary | hexadecimal =>
    obtain ⟨ds, hds, rfl⟩ := mem_just_mul.mp hmem
    obtain ⟨hne, hds⟩ := mem_someOf.mp hds
    have htake := takeWhile_append_of_stops hds hhead
    rw [List.append_assoc]
    simp only [List.cons_append, List.nil_append, Numeral.digitsPart]
    rw [htake, if_neg (by simpa using hne)]
  | whole =>
    obtain ⟨-, hds⟩ := mem_someOf.mp hmem
    rw [hplain (by decide) (by decide), Numeral.decimalPart, takeWhile_append_of_stops hds hhead,
      dropWhile_append_of_stops hds hhead]
    split
    · next hspelling => exact absurd rfl (hdot '.' (by rw [hspelling]; rfl))
    · rfl
  | fraction =>
    obtain ⟨w, places, rfl, ⟨-, hw⟩, hplaces⟩ := Digits.mem_fraction.mp hmem
    have hpoint : ∀ c ∈ ('.' :: (places ++ s.spelling)).head?, isDecimal c = false := by
      rintro _ ⟨⟩
      decide
    rw [hplain (by decide) (by decide), Numeral.decimalPart, List.append_assoc, List.cons_append,
      takeWhile_append_of_stops hw hpoint, dropWhile_append_of_stops hw hpoint]
    show w ++ '.' :: (places ++ s.spelling).takeWhile isDecimal = _
    rw [takeWhile_append_of_stops hplaces hhead]
  | bareFraction =>
    obtain ⟨ds, hds, rfl⟩ := mem_just_mul.mp hmem
    obtain ⟨-, hds⟩ := mem_someOf.mp hds
    rw [hplain (by decide) (by decide)]
    show '.' :: (ds ++ s.spelling).takeWhile isDecimal = _
    rw [takeWhile_append_of_stops hds hhead]
    rfl

/-- Only digits without a point have a value in a base. -/
theorem integerValue_eq (h : Splits remainder d digits s) (hpoint : '.' ∉ digits) :
    Numeral.integerValue digits = d.valueOf digits := by
  have hmem := h.mem
  cases d with
  | fraction =>
    obtain ⟨w, places, rfl, -⟩ := Digits.mem_fraction.mp hmem
    exact absurd (List.mem_append_right w List.mem_cons_self) hpoint
  | bareFraction =>
    obtain ⟨ds, -, rfl⟩ := mem_just_mul.mp hmem
    exact absurd List.mem_cons_self hpoint
  | binary | hexadecimal =>
    obtain ⟨ds, -, rfl⟩ := mem_just_mul.mp hmem
    exact digitsValue_eq_ofDigits _ ds
  | whole =>
    have hmarks := h.ne_mark (by decide) (by decide)
    rw [List.forall_mem_append] at hmarks
    unfold Numeral.integerValue
    split
    · exact absurd rfl (hmarks.1 'b' (by simp)).1
    · exact absurd rfl (hmarks.1 'x' (by simp)).2
    · exact digitsValue_eq_ofDigits 10 _

end Splits

/-- How a literal is read, of which the pattern of numbers found these digits and this suffix: as the
same two parts, and with the value of the digits in their base. -/
structure IsRead (text : List Char) (d : Digits) (digits : List Char) (s : Suffix) : Prop where
  text_eq : text = digits ++ s.spelling
  digitsPart : Numeral.digitsPart text = digits
  suffix : Suffix.ofText? (text.drop digits.length) = some s
  hexadecimal : d = .hexadecimal → s.isFloat = false
  outOfRange : '.' ∉ digits → ∀ done, Lexeme.shape? done ⟨.number, text⟩ =
    .error (.numberOutOfRange (String.ofList text)) ↔ 2 ^ 64 ≤ d.valueOf digits
  whole : '.' ∉ digits → d.valueOf digits < 2 ^ 64 → ∀ done,
    Lexeme.shape? done ⟨.number, text⟩ = .ok (some (.numeral
      ⟨if s.isFloat then .float (Double.ofNat (d.valueOf digits)) else .int (d.valueOf digits), s⟩))
  point : '.' ∈ digits → ∀ done, Lexeme.shape? done ⟨.number, text⟩ =
    .ok (some (.numeral ⟨.float (Numeral.fractionValue digits), s⟩))

@[simp]
theorem Suffix.ofText?_spelling (s : Suffix) : Suffix.ofText? s.spelling = some s := by
  cases s <;> rfl

namespace Splits

/-- The value is read from the parts that the pattern found. -/
theorem ofText?_eq (h : Splits remainder d digits s) :
    Numeral.ofText? (digits ++ s.spelling) = (Numeral.value? digits s).map (⟨·, s⟩) := by
  simp only [Numeral.ofText?, h.digitsPart_eq, List.drop_left, Suffix.ofText?_spelling,
    Option.bind_eq_bind, Option.bind_some]
  cases Numeral.value? digits s <;> rfl

theorem ofText?_of_notMem (h : Splits remainder d digits s) (hpoint : '.' ∉ digits) :
    Numeral.ofText? (digits ++ s.spelling) =
      if 2 ^ 64 ≤ d.valueOf digits then none
      else some ⟨if s.isFloat then .float (Double.ofNat (d.valueOf digits))
        else .int (d.valueOf digits), s⟩ := by
  rw [h.ofText?_eq, Numeral.value?, if_neg hpoint, h.integerValue_eq hpoint]
  show Option.map _ (if 2 ^ 64 ≤ _ then _ else _) = _
  by_cases hrange : 2 ^ 64 ≤ d.valueOf digits
  · rw [if_pos hrange, if_pos hrange]
    rfl
  · rw [if_neg hrange, if_neg hrange]
    cases s.isFloat <;> rfl

theorem ofText?_of_mem (h : Splits remainder d digits s) (hpoint : '.' ∈ digits) :
    Numeral.ofText? (digits ++ s.spelling) =
      some ⟨.float (Numeral.fractionValue digits), s⟩ := by
  rw [h.ofText?_eq, Numeral.value?, if_pos hpoint]
  rfl

theorem isRead (h : Splits remainder d digits s) : IsRead (digits ++ s.spelling) d digits s where
  text_eq := rfl
  digitsPart := h.digitsPart_eq
  suffix := by rw [List.drop_left, Suffix.ofText?_spelling]
  hexadecimal := by
    intro heq
    subst heq
    exact h.isFloat_of_hexadecimal
  outOfRange hpoint done := by
    simp only [Lexeme.shape?, h.ofText?_of_notMem hpoint]
    by_cases hrange : 2 ^ 64 ≤ d.valueOf digits
    · rw [if_pos hrange]
      exact iff_of_true rfl hrange
    · rw [if_neg hrange]
      exact iff_of_false (fun heq => by cases heq) hrange
  whole hpoint hrange done := by
    simp only [Lexeme.shape?, h.ofText?_of_notMem hpoint, if_neg (Nat.not_le.mpr hrange)]
  point hpoint done := by
    simp only [Lexeme.shape?, h.ofText?_of_mem hpoint]

end Splits

/-- **Literals are read exactly.** The text that the pattern of numbers takes is its digits and its
suffix, and the same two are found when its value is read; a hexadecimal literal has no floating suffix.
Without a point, it is out of range exactly if the value of the digits in their base is at least
`2 ^ 64`, and otherwise stands for that value, as a double if the suffix asks for one. With a point it
always stands for a double. -/
theorem literal_isRead (h : Pattern.number.length? (text ++ rest) = some text.length) :
    ∃ d digits s, Splits (text ++ rest) d digits s ∧ IsRead text d digits s := by
  obtain ⟨d, digits, s, hs, hlength, hprefix⟩ := exists_splits h
  have htext : text = digits ++ s.spelling := by
    rw [List.prefix_iff_eq_take.mp hprefix, ← hlength, List.take_left]
  refine ⟨d, digits, s, hs, ?_⟩
  rw [htext]
  exact hs.isRead

theorem literal_isRead_hexadecimal :
    let text := "0x0000ffffffffffffffffu8".toList
    Pattern.number.length? (text ++ ['.']) = some text.length ∧
      ∃ d digits s, Splits (text ++ ['.']) d digits s ∧ IsRead text d digits s := by
  intro text
  have hlength : Pattern.number.length? (text ++ ['.']) = some text.length := by decide +kernel
  exact ⟨hlength, literal_isRead hlength⟩

end FrontEnd.Token
