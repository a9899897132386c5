import FrontEnd.Proofs.Token.Names
import FrontEnd.Proofs.Token.Partition
import Mathlib.Computability.Language

/-!
# Languages of the patterns

Every pattern has a language, made of classes of characters by sequence, choice and repetition.
A pattern measures its language if what it takes at the start of a text is the longest beginning
of the text in the language. Runs, names and comments do.
-/

namespace FrontEnd.Token

open scoped Computability

variable {text u v rest : List Char} {n : Nat}

/-! ## Languages -/

/-- One character of a class. -/
def oneOf (p : Char → Bool) : Language Char := {w | ∃ c, p c = true ∧ w = [c]}

/-- One or more characters of a class. -/
def someOf (p : Char → Bool) : Language Char := oneOf p * (oneOf p)∗

/-- The given characters. -/
def just (w : List Char) : Language Char := {w}

/-- What may follow the first character of a name: the rest of its first segment, and further segments,
each behind a dot. -/
def nameRest : Language Char :=
  (oneOf isNamePart)∗ * (just ['.'] * oneOf isNameStart * (oneOf isNamePart)∗)∗

/-- The texts of a form of digits. -/
def Digits.language : Digits → Language Char
  | binary => just ['0', 'b'] * someOf isBit
  | hexadecimal => just ['0', 'x'] * someOf isHex
  | fraction => someOf isDecimal * (just ['.'] * (oneOf isDecimal)∗)
  | bareFraction => just ['.'] * someOf isDecimal
  | whole => someOf isDecimal

/-- The texts of a pattern. A number is digits of any form with any suffix, or with none. A block
comment ends at its first end mark. -/
def Pattern.language : Pattern → Language Char
  | name => oneOf isNameStart * nameRest
  | number => {w | ∃ (d : Digits) (s : Suffix), ∃ u ∈ d.language, w = u ++ s.spelling}
  | space => someOf isSpace
  | lineComment => just ['/', '/'] * (oneOf (· != '\n'))∗
  | blockComment =>
    {w | ∃ body, w = '/' :: '*' :: (body ++ ['*', '/']) ∧ ¬['*', '/'] <:+: body ++ ['*']}
  | terminator => oneOf isTerminator
  | mark m => just m.spelling

theorem mem_just_mul {L : Language Char} : v ∈ just u * L ↔ ∃ w ∈ L, v = u ++ w := by
  rw [Language.mem_mul]
  constructor
  · rintro ⟨_, rfl, w, hw, rfl⟩
    exact ⟨w, hw, rfl⟩
  · rintro ⟨w, hw, rfl⟩
    exact ⟨u, rfl, w, hw, rfl⟩

theorem mem_oneOf_mul {p : Char → Bool} {L : Language Char} :
    v ∈ oneOf p * L ↔ ∃ c w, v = c :: w ∧ p c = true ∧ w ∈ L := by
  rw [Language.mem_mul]
  constructor
  · rintro ⟨_, ⟨c, hc, rfl⟩, w, hw, rfl⟩
    exact ⟨c, w, rfl, hc, hw⟩
  · rintro ⟨c, w, rfl, hc, hw⟩
    exact ⟨[c], ⟨c, hc, rfl⟩, w, hw, rfl⟩

theorem mem_kstar_oneOf {p : Char → Bool} : v ∈ (oneOf p)∗ ↔ ∀ c ∈ v, p c = true := by
  induction v with
  | nil => exact iff_of_true (Language.nil_mem_kstar _) nofun
  | cons c v ih =>
    rw [← Language.one_add_self_mul_kstar_eq_kstar, Language.mem_add, mem_oneOf_mul,
      List.forall_mem_cons, ← ih]
    constructor
    · rintro (h | ⟨_, _, ⟨⟩, hc, hv⟩)
      · cases h
      · exact ⟨hc, hv⟩
    · rintro ⟨hc, hv⟩
      exact .inr ⟨c, v, rfl, hc, hv⟩

theorem mem_someOf {p : Char → Bool} : v ∈ someOf p ↔ v ≠ [] ∧ ∀ c ∈ v, p c = true := by
  rw [someOf, mem_oneOf_mul]
  constructor
  · rintro ⟨c, w, rfl, hc, hw⟩
    exact ⟨List.cons_ne_nil c w, List.forall_mem_cons.mpr ⟨hc, mem_kstar_oneOf.mp hw⟩⟩
  · rintro ⟨hne, hv⟩
    obtain ⟨c, w, rfl⟩ := List.exists_cons_of_ne_nil hne
    obtain ⟨hc, hw⟩ := List.forall_mem_cons.mp hv
    exact ⟨c, w, rfl, hc, mem_kstar_oneOf.mpr hw⟩

theorem nameRest_eq : nameRest =
    1 + (oneOf isNamePart * nameRest + just ['.'] * (oneOf isNameStart * nameRest)) := by
  have hparts := Language.one_add_self_mul_kstar_eq_kstar (oneOf isNamePart)
  have hsegments := Language.one_add_self_mul_kstar_eq_kstar
    (just ['.'] * oneOf isNameStart * (oneOf isNamePart)∗)
  calc nameRest
      = (1 + oneOf isNamePart * (oneOf isNamePart)∗) *
          (just ['.'] * oneOf isNameStart * (oneOf isNamePart)∗)∗ := by rw [hparts]; rfl
    _ = (just ['.'] * oneOf isNameStart * (oneOf isNamePart)∗)∗ + oneOf isNamePart * nameRest := by
        rw [add_mul, one_mul, mul_assoc (oneOf isNamePart)]; rfl
    _ = 1 + just ['.'] * (oneOf isNameStart * nameRest) + oneOf isNamePart * nameRest := by
        rw [← hsegments]; simp only [mul_assoc, nameRest]
    _ = _ := by rw [add_assoc, add_comm (oneOf isNamePart * nameRest)]

/-! ## Lengths of longest beginnings -/

/-- A function gives the length of the longest beginning of a text that is in a language. -/
structure Measures (L : Language Char) (length? : List Char → Option Nat) : Prop where
  sound {text : List Char} {n : Nat} (h : length? text = some n) :
    ∃ u ∈ L, u <+: text ∧ u.length = n
  greatest {text v : List Char} (hv : v ∈ L) (h : v <+: text) :
    ∃ n, length? text = some n ∧ v.length ≤ n

/-- What is found first among many is as large as all others, if each is as large as those behind it. -/
theorem exists_findSome?_of_pairwise {α β : Type} {f : α → Option β} {size : β → Nat} {as : List α}
    (h : as.Pairwise fun a a' => ∀ b b', f a = some b → f a' = some b' → size b' ≤ size b)
    {a : α} (ha : a ∈ as) {b : β} (hb : f a = some b) :
    ∃ b', as.findSome? f = some b' ∧ size b ≤ size b' := by
  induction as with
  | nil => cases ha
  | cons a₀ as ih =>
    obtain ⟨hfirst, hothers⟩ := List.pairwise_cons.mp h
    rw [List.findSome?_cons]
    rcases List.mem_cons.mp ha with rfl | ha
    · rw [hb]
      exact ⟨b, rfl, Nat.le_refl _⟩
    · cases hf : f a₀ with
      | none => exact ih hothers ha
      | some b₀ => exact ⟨b₀, rfl, hfirst a ha b₀ b hf hb⟩

/-- Of two beginnings of a text the longer one begins with the other. -/
theorem length_le_of_prefixes (hu : u <+: text) (hv : v <+: text)
    (h : u <+: v → v.length ≤ u.length) : v.length ≤ u.length := by
  by_contra hlt
  exact hlt (h (List.prefix_of_prefix_length_le hu hv (by omega)))

/-- A run stops where its class does. -/
theorem takeWhile_append_of_stops {p : Char → Bool} (hu : ∀ c ∈ u, p c = true)
    (hrest : ∀ c ∈ rest.head?, p c = false) : (u ++ rest).takeWhile p = u := by
  have hnil : rest.takeWhile p = [] := by
    cases rest with
    | nil => rfl
    | cons c rest => rw [List.takeWhile_cons, hrest c rfl]; rfl
  rw [List.takeWhile_append_of_pos hu, hnil, List.append_nil]

theorem dropWhile_append_of_stops {p : Char → Bool} (hu : ∀ c ∈ u, p c = true)
    (hrest : ∀ c ∈ rest.head?, p c = false) : (u ++ rest).dropWhile p = rest := by
  rw [List.dropWhile_append_of_pos hu]
  cases rest with
  | nil => rfl
  | cons c rest => rw [List.dropWhile_cons, hrest c rfl]; rfl

theorem length_le_takeWhile {p : Char → Bool} (hv : ∀ c ∈ v, p c = true) (h : v <+: text) :
    v.length ≤ (text.takeWhile p).length := by
  obtain ⟨rest, rfl⟩ := h
  rw [List.takeWhile_append_of_pos hv, List.length_append]
  omega

theorem measures_someOf (p : Char → Bool) : Measures (someOf p) (Digits.run? p) where
  sound {text n} h := by
    obtain ⟨hpos, rfl⟩ := Digits.run?_eq_some.mp h
    refine ⟨text.takeWhile p, mem_someOf.mpr ⟨?_, ?_⟩, List.takeWhile_prefix p, rfl⟩
    · exact fun hnil => hpos (congrArg List.length hnil)
    · exact fun c hc => List.mem_takeWhile_imp hc
  greatest {text v} hv h := by
    obtain ⟨hne, hv⟩ := mem_someOf.mp hv
    have hle := length_le_takeWhile hv h
    have hpos := List.length_pos_iff.mpr hne
    exact ⟨_, Digits.run?_eq_some.mpr ⟨by omega, rfl⟩, hle⟩

/-! ## Names and comments -/

theorem mem_nameRest : v ∈ nameRest ↔ v = [] ∨
    (∃ c w, v = c :: w ∧ isNamePart c = true ∧ w ∈ nameRest) ∨
    ∃ c w, v = '.' :: c :: w ∧ isNameStart c = true ∧ w ∈ nameRest := by
  rw [nameRest_eq, Language.mem_add, Language.mem_one, Language.mem_add, mem_oneOf_mul, mem_just_mul,
    ← nameRest_eq]
  refine or_congr_right (or_congr_right ?_)
  constructor
  · rintro ⟨_, hw, rfl⟩
    obtain ⟨c, w, rfl, hc, hw⟩ := mem_oneOf_mul.mp hw
    exact ⟨c, w, rfl, hc, hw⟩
  · rintro ⟨c, w, rfl, hc, hw⟩
    exact ⟨c :: w, mem_oneOf_mul.mpr ⟨c, w, rfl, hc, hw⟩, rfl⟩

theorem nil_mem_nameRest : [] ∈ nameRest := mem_nameRest.mpr (.inl rfl)

theorem cons_mem_nameRest {c : Char} (hc : isNamePart c = true) : c :: v ∈ nameRest ↔ v ∈ nameRest := by
  have hdot : isNamePart '.' = false := by decide
  rw [mem_nameRest]
  constructor
  · rintro (h | ⟨_, _, ⟨⟩, -, hv⟩ | ⟨_, _, ⟨⟩, -, -⟩)
    · cases h
    · exact hv
    · rw [hdot] at hc
      cases hc
  · exact fun hv => .inr (.inl ⟨c, v, rfl, hc, hv⟩)

/-- How far a name goes on is how far the text is one that may follow the start of a name. -/
theorem nameLength_measures (seen : Nat) (cs : List Char) :
    (∃ u ∈ nameRest, u <+: cs ∧ nameLength seen cs = seen + u.length) ∧
      ∀ v ∈ nameRest, v <+: cs → seen + v.length ≤ nameLength seen cs := by
  induction cs generalizing seen with
  | nil =>
    refine ⟨⟨[], nil_mem_nameRest, List.nil_prefix, rfl⟩, fun v _ hv => ?_⟩
    rw [List.prefix_nil.mp hv]
    exact Nat.le_refl seen
  | cons c cs ih =>
    obtain ⟨⟨u, hu, hprefix, hlength⟩, hgreatest⟩ := ih (seen + 1)
    have hstep := le_nameLength (seen + 1) cs
    have hdot : isNamePart '.' = false := by decide
    rw [nameLength]
    by_cases hpart : isNamePart c = true
    · rw [if_pos hpart]
      constructor
      · refine ⟨c :: u, (cons_mem_nameRest hpart).mpr hu, List.cons_prefix_cons.mpr ⟨rfl, hprefix⟩, ?_⟩
        rw [hlength, List.length_cons]
        omega
      · intro v hv h
        cases v with
        | nil => show seen ≤ _; omega
        | cons d w =>
          obtain ⟨rfl, hw⟩ := List.cons_prefix_cons.mp h
          have hle := hgreatest w ((cons_mem_nameRest hpart).mp hv) hw
          rw [List.length_cons]
          omega
    · rw [if_neg hpart]
      by_cases hsegment : (c == '.' && (cs.head?.map isNameStart).getD false) = true
      · -- A dot belongs to the name with what follows it, which the rest of the name starts with.
        rw [if_pos hsegment]
        rw [Bool.and_eq_true, beq_iff_eq] at hsegment
        obtain ⟨rfl, hstart⟩ := hsegment
        cases cs with
        | nil => cases hstart
        | cons d ds =>
          have hd : isNameStart d = true := hstart
          have hdpart := isNamePart_of_isNameStart hd
          constructor
          · have hone := hgreatest [d] ((cons_mem_nameRest hdpart).mpr nil_mem_nameRest)
              (List.cons_prefix_cons.mpr ⟨rfl, List.nil_prefix⟩)
            rw [hlength, List.length_singleton] at hone
            obtain ⟨d', w, rfl⟩ := List.exists_cons_of_length_pos (show 0 < u.length by omega)
            obtain ⟨rfl, hw⟩ := List.cons_prefix_cons.mp hprefix
            refine ⟨'.' :: d' :: w, ?_, List.cons_prefix_cons.mpr ⟨rfl, hprefix⟩, ?_⟩
            · exact mem_nameRest.mpr (.inr (.inr ⟨d', w, rfl, hd, (cons_mem_nameRest hdpart).mp hu⟩))
            · rw [hlength]
              simp only [List.length_cons]
              omega
          · intro v hv h
            rcases mem_nameRest.mp hv with rfl | ⟨c', w, rfl, hc', -⟩ | ⟨d', w, rfl, hd', hw⟩
            · show seen ≤ _
              omega
            · obtain ⟨rfl, -⟩ := List.cons_prefix_cons.mp h
              exact absurd hc' hpart
            · obtain ⟨-, h⟩ := List.cons_prefix_cons.mp h
              have hmem := (cons_mem_nameRest (isNamePart_of_isNameStart hd')).mpr hw
              have hle := hgreatest _ hmem h
              rw [List.length_cons]
              show seen + ((d' :: w).length + 1) ≤ _
              omega
      · rw [if_neg hsegment]
        refine ⟨⟨[], nil_mem_nameRest, List.nil_prefix, rfl⟩, fun v hv h => ?_⟩
        rcases mem_nameRest.mp hv with rfl | ⟨c', w, rfl, hc', -⟩ | ⟨d', w, rfl, hd', hw⟩
        · exact Nat.le_refl seen
        · obtain ⟨rfl, -⟩ := List.cons_prefix_cons.mp h
          exact absurd hc' hpart
        · obtain ⟨rfl, hsegment'⟩ := List.cons_prefix_cons.mp h
          obtain ⟨rest, rfl⟩ := hsegment'
          refine absurd ?_ hsegment
          rw [Bool.and_eq_true]
          exact ⟨rfl, hd'⟩

theorem measures_name : Measures Pattern.name.language Pattern.name.length? where
  sound {text n} h := by
    cases text with
    | nil => cases h
    | cons c cs =>
      rw [Pattern.length?] at h
      split at h
      · next hc =>
        cases h
        obtain ⟨u, hu, hprefix, hlength⟩ := (nameLength_measures 1 cs).1
        refine ⟨c :: u, mem_oneOf_mul.mpr ⟨c, u, rfl, hc, hu⟩, ?_, ?_⟩
        · exact List.cons_prefix_cons.mpr ⟨rfl, hprefix⟩
        · rw [hlength, List.length_cons, Nat.add_comm]
      · cases h
  greatest {text v} hv h := by
    obtain ⟨c, w, rfl, hc, hw⟩ := mem_oneOf_mul.mp hv
    cases text with
    | nil => cases List.prefix_nil.mp h
    | cons c' cs =>
      obtain ⟨rfl, hprefix⟩ := List.cons_prefix_cons.mp h
      have hle := (nameLength_measures 1 cs).2 w hw hprefix
      refine ⟨_, if_pos hc, ?_⟩
      rw [List.length_cons]
      omega

/-- The first end mark ends a comment. -/
theorem commentLength?_append_end {body : List Char} (h : ¬['*', '/'] <:+: body ++ ['*'])
    (seen : Nat) (more : List Char) :
    commentLength? seen (body ++ '*' :: '/' :: more) = some (seen + body.length + 2) := by
  induction body generalizing seen with
  | nil => rfl
  | cons c body ih =>
    rw [List.cons_append, List.infix_cons_iff, not_or] at h
    have hgoes : ¬(c == '*' && (body ++ '*' :: '/' :: more).head? == some '/') = true := by
      intro hend
      rw [Bool.and_eq_true, beq_iff_eq, beq_iff_eq] at hend
      obtain ⟨rfl, hslash⟩ := hend
      refine h.1 (List.cons_prefix_cons.mpr ⟨rfl, ?_⟩)
      cases body with
      | nil => cases hslash
      | cons d body =>
        cases hslash
        exact List.cons_prefix_cons.mpr ⟨rfl, List.nil_prefix⟩
    rw [List.cons_append, commentLength?, if_neg hgoes, ih h.2, List.length_cons]
    congr 1
    omega

theorem measures_blockComment :
    Measures Pattern.blockComment.language Pattern.blockComment.length? where
  sound {text n} h := by
    unfold Pattern.length? at h
    split at h <;> try cases ‹Pattern.blockComment = _›
    · next more =>
      obtain ⟨body, after, rfl, rfl, hfirst⟩ := exists_of_commentLength? h
      refine ⟨'/' :: '*' :: (body ++ ['*', '/']), ⟨body, rfl, hfirst⟩, ⟨after, by simp⟩, ?_⟩
      simp only [List.length_cons, List.length_append, List.length_nil]
      omega
    · cases h
  greatest {text v} hv h := by
    obtain ⟨body, rfl, hfirst⟩ := hv
    obtain ⟨rest, rfl⟩ := h
    refine ⟨2 + body.length + 2, ?_, ?_⟩
    · have hend := commentLength?_append_end hfirst 2 rest
      rw [List.cons_append, List.cons_append, List.append_assoc]
      exact hend
    · simp only [List.length_cons, List.length_append, List.length_nil]
      omega

theorem measures_lineComment :
    Measures Pattern.lineComment.language Pattern.lineComment.length? where
  sound {text n} h := by
    unfold Pattern.length? at h
    split at h <;> try cases ‹Pattern.lineComment = _›
    · next more =>
      cases h
      refine ⟨'/' :: '/' :: more.takeWhile (· != '\n'), ?_, ?_, ?_⟩
      · refine mem_just_mul.mpr ⟨_, mem_kstar_oneOf.mpr fun c hc => ?_, rfl⟩
        exact List.mem_takeWhile_imp (p := (· != '\n')) hc
      · exact List.cons_prefix_cons.mpr
          ⟨rfl, List.cons_prefix_cons.mpr ⟨rfl, List.takeWhile_prefix _⟩⟩
      · simp only [List.length_cons]
        omega
    · cases h
  greatest {text v} hv h := by
    obtain ⟨body, hbody, rfl⟩ := mem_just_mul.mp hv
    obtain ⟨rest, rfl⟩ := h
    have hle := length_le_takeWhile (mem_kstar_oneOf.mp hbody) (List.prefix_append body rest)
    refine ⟨2 + ((body ++ rest).takeWhile (· != '\n')).length, rfl, ?_⟩
    rw [List.length_append]
    show 2 + body.length ≤ _
    omega

end FrontEnd.Token
