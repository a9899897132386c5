import FrontEnd.Token.Pattern
import Mathlib.Data.List.TakeWhile

/-!
# Lexemes and what follows them

What a pattern takes is part of the text, and depends on no more of it than that: a
pattern that has taken its part takes the same where the text ends behind the part, and
one that takes nothing there takes nothing of a shorter text either. So a text can be cut
off between two lexemes, and those before are still found.
-/

namespace FrontEnd.Token

variable {u rest : List Char} {n : Nat}

/-- A run that ends within the first part of a text is one of that part. -/
theorem takeWhile_of_append {p : Char → Bool} (h : ((u ++ rest).takeWhile p).length ≤ u.length) :
    u.takeWhile p = (u ++ rest).takeWhile p := by
  rw [List.takeWhile_append] at h ⊢
  split
  · next hall =>
    rw [if_pos hall, List.length_append] at h
    have hu : u.takeWhile p = u := (List.takeWhile_prefix p).eq_of_length hall
    have hrest : rest.takeWhile p = [] := List.eq_nil_of_length_eq_zero (by omega)
    rw [hu, hrest, List.append_nil]
  · rfl

/-! ## Names and comments -/

theorem nameLength_le (seen : Nat) (cs : List Char) : nameLength seen cs ≤ seen + cs.length := by
  induction cs generalizing seen with
  | nil => exact Nat.le_refl seen
  | cons c cs ih =>
    have hle := ih (seen + 1)
    rw [List.length_cons]
    unfold nameLength
    repeat' split
    all_goals omega

theorem nameLength_of_append {seen : Nat} (h : nameLength seen (u ++ rest) ≤ seen + u.length) :
    nameLength seen u = nameLength seen (u ++ rest) := by
  induction u generalizing seen with
  | nil =>
    have hle := le_nameLength seen rest
    exact Nat.le_antisymm hle h
  | cons c cs ih =>
    rw [List.length_cons] at h
    rw [List.cons_append] at h ⊢
    rw [nameLength] at h ⊢
    rw [nameLength]
    split at h
    · next hpart =>
      rw [if_pos hpart, if_pos hpart]
      exact ih (by omega)
    · next hpart =>
      rw [if_neg hpart, if_neg hpart]
      cases cs with
      | nil =>
        -- A dot at the end would belong to the name only with what follows.
        split at h
        · next hdot =>
          rw [List.nil_append, Bool.and_eq_true] at hdot
          cases rest with
          | nil => cases hdot.2
          | cons d ds =>
            have hd : isNamePart d = true := by
              rw [isNamePart, Bool.or_eq_true]
              exact .inl hdot.2
            have hle := le_nameLength (seen + 1 + 1) ds
            rw [List.nil_append, nameLength, if_pos hd] at h
            simp only [List.length_nil] at h
            omega
        · next hdot =>
          rw [if_neg hdot, List.head?_nil]
          simp
      | cons d ds =>
        rw [List.cons_append, List.head?_cons] at h ⊢
        rw [List.head?_cons]
        split at h
        · next hdot =>
          rw [if_pos hdot, if_pos hdot]
          exact ih (by rw [List.cons_append]; omega)
        · next hdot => rw [if_neg hdot, if_neg hdot]

theorem commentLength?_le {seen : Nat} {cs : List Char} (h : commentLength? seen cs = some n) :
    n ≤ seen + cs.length := by
  induction cs generalizing seen with
  | nil => cases h
  | cons c cs ih =>
    rw [commentLength?] at h
    rw [List.length_cons]
    split at h
    · next hend =>
      cases h
      cases cs with
      | nil => simp at hend
      | cons d ds => rw [List.length_cons]; omega
    · have hle := ih h
      omega

theorem commentLength?_append {seen : Nat} (h : commentLength? seen u = some n) (rest : List Char) :
    commentLength? seen (u ++ rest) = some n := by
  induction u generalizing seen with
  | nil => cases h
  | cons c cs ih =>
    rw [commentLength?] at h
    rw [List.cons_append, commentLength?]
    split at h
    · next hend =>
      cases cs with
      | nil => simp at hend
      | cons d ds => rw [List.cons_append, List.head?_cons, ← List.head?_cons (l := ds), if_pos hend, h]
    · next hend =>
      cases cs with
      | nil => cases h
      | cons d ds =>
        rw [List.cons_append, List.head?_cons, ← List.head?_cons (l := ds), if_neg hend]
        exact ih h

theorem commentLength?_of_append {seen : Nat} (h : commentLength? seen (u ++ rest) = some n)
    (hn : n ≤ seen + u.length) : commentLength? seen u = some n := by
  induction u generalizing seen with
  | nil =>
    have hlt := lt_commentLength? h
    simp only [List.length_nil] at hn
    omega
  | cons c cs ih =>
    rw [List.length_cons] at hn
    rw [List.cons_append, commentLength?] at h
    rw [commentLength?]
    cases cs with
    | nil =>
      split at h
      · cases h
        simp only [List.length_nil] at hn
        omega
      · have hlt := lt_commentLength? h
        simp only [List.length_nil] at hn
        omega
    | cons d ds =>
      rw [List.cons_append, List.head?_cons, ← List.head?_cons (l := ds)] at h
      split at h
      · next hend => rw [if_pos hend, h]
      · next hend =>
        rw [if_neg hend]
        exact ih h (by omega)

/-! ## Numbers -/

theorem Suffix.atStart_prefix (text : List Char) : (atStart text).spelling <+: text := by
  rw [atStart]
  cases h : written.find? (·.spelling.isPrefixOf text) with
  | none => exact List.nil_prefix
  | some s =>
    have hprefix := List.find?_some h
    exact List.isPrefixOf_iff_prefix.mp hprefix

/-- A text that starts with `front` does so already in its first part, if that is long enough. -/
theorem exists_of_append_eq (front : List Char) {more : List Char} (h : u ++ rest = front ++ more)
    (hle : front.length ≤ u.length) : ∃ u', u = front ++ u' ∧ u' ++ rest = more := by
  rcases List.append_eq_append_iff.mp h with ⟨x, hfront, hrest⟩ | ⟨u', hu, hmore⟩
  · have hx : x = [] := by
      rw [hfront, List.length_append] at hle
      exact List.eq_nil_of_length_eq_zero (by omega)
    rw [hx, List.append_nil] at hfront
    rw [hx, List.nil_append] at hrest
    exact ⟨[], by rw [hfront, List.append_nil], hrest⟩
  · exact ⟨u', hu, hmore.symm⟩

/-- Where fewer are found, the first one is the same if it is still found. -/
theorem find?_of_imp {α : Type} {p q : α → Bool} (hpq : ∀ a, q a = true → p a = true) {as : List α}
    (h : ∀ a, as.find? p = some a → q a = true) : as.find? q = as.find? p := by
  induction as with
  | nil => rfl
  | cons a as ih =>
    cases hp : p a with
    | true =>
      have hq : q a = true := h a (by rw [List.find?_cons, hp])
      rw [List.find?_cons, List.find?_cons, hp, hq]
    | false =>
      have hq : q a = false := Bool.eq_false_iff.mpr fun hq => Bool.eq_false_iff.mp hp (hpq a hq)
      rw [List.find?_cons, hp] at h
      rw [List.find?_cons, List.find?_cons, hp, hq]
      exact ih h

theorem findSome?_of_imp {α β : Type} {f g : α → Option β} {b : β}
    (hnone : ∀ a, f a = none → g a = none) (hsome : ∀ a, f a = some b → g a = some b) {as : List α}
    (h : as.findSome? f = some b) : as.findSome? g = some b := by
  induction as with
  | nil => cases h
  | cons a as ih =>
    rw [List.findSome?_cons] at h ⊢
    cases hf : f a with
    | none =>
      rw [hf] at h
      rw [hnone a hf]
      exact ih h
    | some b' =>
      rw [hf] at h
      cases h
      rw [hsome a hf]

theorem Suffix.atStart_of_append (h : (atStart (u ++ rest)).spelling.length ≤ u.length) :
    atStart u = atStart (u ++ rest) := by
  unfold atStart at h ⊢
  rw [find?_of_imp]
  · intro s hs
    rw [List.isPrefixOf_iff_prefix] at hs ⊢
    exact hs.trans (List.prefix_append u rest)
  · intro s hs
    rw [hs] at h
    have hprefix := List.find?_some hs
    rw [List.isPrefixOf_iff_prefix] at hprefix ⊢
    exact List.prefix_of_prefix_length_le hprefix (List.prefix_append u rest) h

namespace Digits

theorem run?_eq_some {p : Char → Bool} {text : List Char} :
    run? p text = some n ↔ n ≠ 0 ∧ (text.takeWhile p).length = n := by
  unfold run?
  split
  · next h0 =>
    rw [h0]
    exact iff_of_false nofun fun h => h.1 h.2.symm
  · next hn =>
    constructor
    · rintro ⟨⟩
      exact ⟨hn, rfl⟩
    · rintro ⟨-, rfl⟩
      rfl

theorem run?_le {p : Char → Bool} {text : List Char} (h : run? p text = some n) :
    n ≤ text.length := by
  rw [← (run?_eq_some.mp h).2]
  exact (List.takeWhile_prefix p).length_le

theorem run?_of_append {p : Char → Bool} (h : run? p (u ++ rest) = some n) (hn : n ≤ u.length) :
    run? p u = some n := by
  obtain ⟨hpos, hlength⟩ := run?_eq_some.mp h
  refine run?_eq_some.mpr ⟨hpos, ?_⟩
  rw [takeWhile_of_append (by rwa [hlength]), hlength]

theorem exists_run?_append {p : Char → Bool} (h : run? p u = some n) (rest : List Char) :
    ∃ m, run? p (u ++ rest) = some m := by
  obtain ⟨hpos, hlength⟩ := run?_eq_some.mp h
  refine ⟨_, run?_eq_some.mpr ⟨?_, rfl⟩⟩
  rw [List.takeWhile_append]
  split
  · rw [List.length_append]
    omega
  · omega

/-- What a form without a whole part before its point starts with. -/
def front : Digits → List Char
  | binary => ['0', 'b']
  | hexadecimal => ['0', 'x']
  | bareFraction => ['.']
  | fraction | whole => []

/-- The digits of a form. -/
def digit : Digits → Char → Bool
  | binary => isBit
  | hexadecimal => isHex
  | fraction | bareFraction | whole => isDecimal

theorem length?_fraction {text : List Char} :
    fraction.length? text = some n ↔ ∃ k more, run? isDecimal text = some k ∧
      text.drop k = '.' :: more ∧ n = k + 1 + (more.takeWhile isDecimal).length := by
  constructor
  · intro h
    obtain ⟨k, hk, h⟩ := Option.bind_eq_some_iff.mp h
    split at h
    · next more hdrop =>
      cases h
      exact ⟨k, more, hk, hdrop, rfl⟩
    · cases h
  · rintro ⟨k, more, hk, hdrop, rfl⟩
    exact Option.bind_eq_some_iff.mpr ⟨k, hk, by simp only [hdrop]⟩

/-- All other forms are a run of digits after their front. -/
theorem length?_of_ne_fraction {d : Digits} (hd : d ≠ fraction) {text : List Char} :
    d.length? text = some n ↔
      ∃ ds k, text = d.front ++ ds ∧ run? d.digit ds = some k ∧ n = d.front.length + k := by
  constructor
  · intro h
    unfold length? at h
    split at h
    · obtain ⟨k, hk, rfl⟩ := Option.map_eq_some_iff.mp h
      exact ⟨_, k, rfl, hk, rfl⟩
    · obtain ⟨k, hk, rfl⟩ := Option.map_eq_some_iff.mp h
      exact ⟨_, k, rfl, hk, rfl⟩
    · exact absurd rfl hd
    · obtain ⟨k, hk, rfl⟩ := Option.map_eq_some_iff.mp h
      exact ⟨_, k, rfl, hk, rfl⟩
    · exact ⟨_, n, rfl, h, (Nat.zero_add n).symm⟩
    · cases h
  · rintro ⟨ds, k, rfl, hk, rfl⟩
    cases d with
    | fraction => exact absurd rfl hd
    | whole => simpa [length?, front, digit] using hk
    | _ => exact Option.map_eq_some_iff.mpr ⟨k, hk, rfl⟩

theorem length?_le {d : Digits} {text : List Char} (h : d.length? text = some n) :
    n ≤ text.length := by
  by_cases hd : d = fraction
  · subst hd
    obtain ⟨k, more, -, hdrop, rfl⟩ := length?_fraction.mp h
    have hlength := congrArg List.length hdrop
    have hle := (List.takeWhile_prefix isDecimal (l := more)).length_le
    rw [List.length_drop, List.length_cons] at hlength
    omega
  · obtain ⟨ds, k, rfl, hk, rfl⟩ := (length?_of_ne_fraction hd).mp h
    rw [List.length_append]
    exact Nat.add_le_add_left (run?_le hk) _

/-- A form that is there at the start of a text is there in a longer one, and may reach further. -/
theorem exists_length?_append {d : Digits} (h : d.length? u = some n) (rest : List Char) :
    ∃ m, d.length? (u ++ rest) = some m := by
  by_cases hd : d = fraction
  · subst hd
    obtain ⟨k, more, hk, hdrop, -⟩ := length?_fraction.mp h
    obtain ⟨hpos, hlength⟩ := run?_eq_some.mp hk
    -- The whole part ends at the point, whatever comes after that.
    have hshort := congrArg List.length hdrop
    rw [List.length_drop, List.length_cons] at hshort
    refine ⟨_, length?_fraction.mpr ⟨k, more ++ rest, ?_, ?_, rfl⟩⟩
    · rw [run?_eq_some, List.takeWhile_append, if_neg (by omega)]
      exact ⟨hpos, hlength⟩
    · rw [List.drop_append_of_le_length (run?_le hk), hdrop, List.cons_append]
  · obtain ⟨ds, k, rfl, hk, -⟩ := (length?_of_ne_fraction hd).mp h
    obtain ⟨m, hm⟩ := exists_run?_append hk rest
    exact ⟨_, (length?_of_ne_fraction hd).mpr ⟨ds ++ rest, m, List.append_assoc .., hm, rfl⟩⟩

/-- A form that is not there at the start of a text is not there in a shorter one. -/
theorem length?_eq_none_of_append {d : Digits} (h : d.length? (u ++ rest) = none) :
    d.length? u = none := by
  refine Option.eq_none_iff_forall_ne_some.mpr fun n hn => ?_
  obtain ⟨m, hm⟩ := exists_length?_append hn rest
  cases h.symm.trans hm

/-- A form that ends within the first part of a text is there in that part. -/
theorem length?_of_append {d : Digits} (h : d.length? (u ++ rest) = some n) (hn : n ≤ u.length) :
    d.length? u = some n := by
  by_cases hd : d = fraction
  · subst hd
    obtain ⟨k, more, hk, hdrop, rfl⟩ := length?_fraction.mp h
    have hle : k ≤ u.length := by omega
    rw [List.drop_append_of_le_length hle] at hdrop
    have hpoint : (['.'] : List Char).length ≤ (u.drop k).length := by
      rw [List.length_drop, List.length_singleton]
      omega
    obtain ⟨places, hdrop', rfl⟩ := exists_of_append_eq ['.'] hdrop hpoint
    have hlength := congrArg List.length hdrop'
    rw [List.length_drop, List.length_append, List.length_singleton] at hlength
    have hplaces : ((places ++ rest).takeWhile isDecimal).length ≤ places.length := by omega
    refine length?_fraction.mpr ⟨k, places, run?_of_append hk hle, hdrop', ?_⟩
    rw [takeWhile_of_append hplaces]
  · obtain ⟨ds, k, heq, hk, rfl⟩ := (length?_of_ne_fraction hd).mp h
    obtain ⟨u, rfl, rfl⟩ := exists_of_append_eq _ heq (Nat.le_of_add_right_le hn)
    rw [List.length_append] at hn
    have hrun := run?_of_append hk (Nat.le_of_add_le_add_left hn)
    exact (length?_of_ne_fraction hd).mpr ⟨u, k, rfl, hrun, rfl⟩

end Digits

namespace Pattern

/-- A pattern takes no more than there is. -/
theorem length?_le {p : Pattern} {text : List Char} (h : p.length? text = some n) :
    n ≤ text.length := by
  unfold length? at h
  split at h
  · next c cs =>
    split at h
    · cases h
      have hle := nameLength_le 1 cs
      rw [List.length_cons]
      omega
    · cases h
  · obtain ⟨m, hm, h⟩ := Option.bind_eq_some_iff.mp h
    obtain ⟨d, -, hd⟩ := List.exists_of_findSome?_eq_some hm
    cases h
    have hdigits := Digits.length?_le hd
    have hsuffix := (Suffix.atStart_prefix (text.drop m)).length_le
    rw [List.length_drop] at hsuffix
    omega
  · exact Digits.run?_le h
  · next rest =>
    cases h
    have hle := (List.takeWhile_prefix (· != '\n') (l := rest)).length_le
    simp only [List.length_cons]
    omega
  · next rest =>
    have hle := commentLength?_le h
    simp only [List.length_cons]
    omega
  · split at h
    · cases h
      exact Nat.le_add_left 1 _
    · cases h
  · split at h
    · next hprefix =>
      cases h
      exact (List.isPrefixOf_iff_prefix.mp hprefix).length_le
    · cases h
  · cases h

/-- What a pattern takes something of, it takes something of when more text follows. -/
theorem exists_length?_append {p : Pattern} (h : p.length? u = some n) (rest : List Char) :
    ∃ m, p.length? (u ++ rest) = some m := by
  unfold length? at h
  split at h
  · next c cs =>
    split at h
    · next hc =>
      exact ⟨_, if_pos hc⟩
    · cases h
  · obtain ⟨m, hm, -⟩ := Option.bind_eq_some_iff.mp h
    obtain ⟨d, hd, hlength⟩ := List.exists_of_findSome?_eq_some hm
    obtain ⟨k, hk⟩ := Digits.exists_length?_append hlength rest
    have hsome : (Digits.all.findSome? (·.length? (u ++ rest))).isSome = true :=
      List.findSome?_isSome_iff.mpr ⟨d, hd, by rw [hk]; rfl⟩
    obtain ⟨k', hk'⟩ := Option.isSome_iff_exists.mp hsome
    exact ⟨_, Option.bind_eq_some_iff.mpr ⟨k', hk', rfl⟩⟩
  · exact Digits.exists_run?_append h rest
  · exact ⟨_, rfl⟩
  · exact ⟨n, commentLength?_append h rest⟩
  · split at h
    · next hc => exact ⟨_, if_pos hc⟩
    · cases h
  · split at h
    · next hprefix =>
      refine ⟨_, if_pos ?_⟩
      rw [List.isPrefixOf_iff_prefix] at hprefix ⊢
      exact hprefix.trans (List.prefix_append u rest)
    · cases h
  · cases h

/-- A pattern that takes nothing takes nothing of a shorter text. -/
theorem length?_eq_none_of_append {p : Pattern} (h : p.length? (u ++ rest) = none) :
    p.length? u = none := by
  refine Option.eq_none_iff_forall_ne_some.mpr fun n hn => ?_
  obtain ⟨m, hm⟩ := exists_length?_append hn rest
  cases h.symm.trans hm

/-- What a pattern takes of a text depends only on the part that it takes. -/
theorem length?_of_append {p : Pattern} (h : p.length? (u ++ rest) = some n) (hn : n ≤ u.length) :
    p.length? u = some n := by
  have hu : 0 < u.length := Nat.lt_of_lt_of_le (length?_pos h) hn
  cases p with
  | name =>
    obtain ⟨c, cs, rfl⟩ := List.exists_cons_of_length_pos hu
    rw [List.cons_append, length?] at h
    rw [length?]
    split at h
    · next hc =>
      cases h
      rw [List.length_cons, Nat.add_comm] at hn
      rw [if_pos hc, nameLength_of_append hn]
    · cases h
  | number =>
    obtain ⟨m, hm, h⟩ := Option.bind_eq_some_iff.mp h
    cases h
    have hmu : m ≤ u.length := Nat.le_of_add_right_le hn
    have hdigits : Digits.all.findSome? (·.length? u) = some m :=
      findSome?_of_imp (fun d => Digits.length?_eq_none_of_append)
        (fun d hd => Digits.length?_of_append hd hmu) hm
    have hsuffix : Suffix.atStart (u.drop m) = Suffix.atStart ((u ++ rest).drop m) := by
      rw [List.drop_append_of_le_length hmu] at hn ⊢
      exact Suffix.atStart_of_append (by rw [List.length_drop]; omega)
    exact Option.bind_eq_some_iff.mpr ⟨m, hdigits, by rw [hsuffix]⟩
  | space => exact Digits.run?_of_append h hn
  | lineComment =>
    unfold length? at h
    split at h <;> try cases ‹lineComment = _›
    · next more heq =>
      cases h
      obtain ⟨u, rfl, rfl⟩ := exists_of_append_eq ['/', '/'] heq (Nat.le_of_add_right_le hn)
      rw [List.length_append] at hn
      rw [← takeWhile_of_append (Nat.le_of_add_le_add_left hn)]
      rfl
    · cases h
  | blockComment =>
    unfold length? at h
    split at h <;> try cases ‹blockComment = _›
    · next more heq =>
      have hlt := lt_commentLength? h
      obtain ⟨u, rfl, rfl⟩ := exists_of_append_eq ['/', '*'] heq (by simp; omega)
      rw [List.length_append] at hn
      exact commentLength?_of_append h hn
    · cases h
  | terminator =>
    obtain ⟨c, cs, rfl⟩ := List.exists_cons_of_length_pos hu
    exact h
  | mark m =>
    rw [length?] at h ⊢
    split at h
    · next hprefix =>
      cases h
      rw [List.isPrefixOf_iff_prefix] at hprefix
      refine if_pos (List.isPrefixOf_iff_prefix.mpr ?_)
      exact List.prefix_of_prefix_length_le hprefix (List.prefix_append u rest) hn
    · cases h

/-- The first pattern that takes something is the first one still where the text ends behind what it
takes. -/
theorem first?_of_append {p : Pattern} (h : first? (u ++ rest) = some (p, n)) (hn : n ≤ u.length) :
    first? u = some (p, n) := by
  refine findSome?_of_imp (fun q hq => ?_) (fun q hq => ?_) h
  · rw [Option.map_eq_none_iff] at hq ⊢
    exact length?_eq_none_of_append hq
  · obtain ⟨m, hm, heq⟩ := Option.map_eq_some_iff.mp hq
    cases heq
    rw [length?_of_append hm hn]
    rfl

/-- The first pattern takes what it takes on its own. -/
theorem length?_of_first? {p : Pattern} {text : List Char} (h : first? text = some (p, n)) :
    p.length? text = some n := by
  obtain ⟨q, -, hq⟩ := List.exists_of_findSome?_eq_some h
  obtain ⟨m, hm, heq⟩ := Option.map_eq_some_iff.mp hq
  cases heq
  exact hm

theorem first?_eq_none {text : List Char} :
    first? text = none ↔ ∀ p ∈ table, p.length? text = none := by
  simp only [first?, List.findSome?_eq_none_iff, Option.map_eq_none_iff]

end Pattern

/-! ## Texts cut into lexemes -/

/-- A text is cut into lexemes, each of them taken by the first pattern that takes something of what is
left then. It goes on until nothing is left, or no pattern takes anything. -/
inductive Cuts : List Char → List Lexeme → List Char → Prop
  | done : Cuts [] [] []
  | stuck {c : Char} {cs : List Char} (nothing : Pattern.first? (c :: cs) = none) :
    Cuts (c :: cs) [] (c :: cs)
  | lexeme {l : Lexeme} {text rest : List Char} {ls : List Lexeme}
    (first : Pattern.first? (l.text ++ text) = some (l.pattern, l.text.length))
    (others : Cuts text ls rest) : Cuts (l.text ++ text) (l :: ls) rest

variable {text : List Char} {ls ls' : List Lexeme} {rest' : List Char}

theorem cuts_lexemesFrom (done : List Lexeme) (skip : Nat) (cs : List Char) :
    ∃ ls rest, lexemesFrom done skip cs = (done.reverse ++ ls, rest) ∧ Cuts (cs.drop skip) ls rest := by
  induction cs generalizing done skip with
  | nil => exact ⟨[], [], by rw [lexemesFrom, List.append_nil], by rw [List.drop_nil]; exact .done⟩
  | cons c cs ih =>
    cases skip with
    | succ skip => exact ih done skip
    | zero =>
      rw [lexemesFrom]
      cases hfirst : Pattern.first? (c :: cs) with
      | none => exact ⟨[], c :: cs, by rw [List.append_nil], .stuck hfirst⟩
      | some taken =>
        obtain ⟨p, n⟩ := taken
        obtain ⟨m, rfl⟩ := Nat.exists_eq_succ_of_ne_zero (Nat.ne_of_gt (Pattern.first?_pos hfirst))
        obtain ⟨ls, rest, hls, hcuts⟩ := ih (⟨p, (c :: cs).take (m + 1)⟩ :: done) m
        refine ⟨⟨p, (c :: cs).take (m + 1)⟩ :: ls, rest, ?_, ?_⟩
        · refine hls.trans ?_
          rw [List.reverse_cons, List.append_assoc, List.singleton_append]
        · have hle := Pattern.length?_le (Pattern.length?_of_first? hfirst)
          have htext : (c :: cs).take (m + 1) ++ cs.drop m = c :: cs :=
            List.take_append_drop (m + 1) (c :: cs)
          have hcut : Cuts ((c :: cs).take (m + 1) ++ cs.drop m)
              (⟨p, (c :: cs).take (m + 1)⟩ :: ls) rest := by
            refine .lexeme (l := ⟨p, (c :: cs).take (m + 1)⟩) ?_ hcuts
            rw [htext, hfirst, List.length_take, Nat.min_eq_left hle]
          rwa [htext] at hcut

theorem cuts_lexemes (text : List Char) : Cuts text (lexemes text).1 (lexemes text).2 := by
  obtain ⟨ls, rest, hls, hcuts⟩ := cuts_lexemesFrom [] 0 text
  rw [lexemes, hls]
  exact hcuts

namespace Cuts

/-- There is only one way to cut a text. -/
theorem unique (h : Cuts text ls rest) (h' : Cuts text ls' rest') : ls = ls' ∧ rest = rest' := by
  induction h generalizing ls' rest' with
  | done =>
    generalize ht : ([] : List Char) = text at h'
    cases h' with
    | done => exact ⟨rfl, ht⟩
    | stuck => cases ht
    | lexeme first _ =>
      obtain ⟨hl, -⟩ := List.append_eq_nil_iff.mp ht.symm
      rw [hl] at first
      exact absurd (Pattern.first?_pos first) (Nat.lt_irrefl 0)
  | @stuck c cs nothing =>
    generalize ht : c :: cs = text at h'
    cases h' with
    | done => cases ht
    | stuck _ =>
      cases ht
      exact ⟨rfl, rfl⟩
    | lexeme first _ =>
      rw [← ht, nothing] at first
      cases first
  | @lexeme l text _ _ first _ ih =>
    generalize ht : l.text ++ text = whole at h'
    cases h' with
    | done =>
      obtain ⟨hl, -⟩ := List.append_eq_nil_iff.mp ht
      rw [hl] at first
      exact absurd (Pattern.first?_pos first) (Nat.lt_irrefl 0)
    | stuck nothing =>
      rw [ht, nothing] at first
      cases first
    | @lexeme l' _ _ _ first' others' =>
      rw [ht, first', Option.some.injEq, Prod.mk.injEq] at first
      obtain ⟨htext, rfl⟩ := List.append_inj ht first.2.symm
      obtain ⟨rfl, rfl⟩ := ih others'
      obtain ⟨pattern, lexeme⟩ := l
      obtain ⟨pattern', lexeme'⟩ := l'
      exact ⟨by rw [show pattern = pattern' from first.1.symm, show lexeme = lexeme' from htext], rfl⟩

theorem lexemes_eq (h : Cuts text ls rest) : lexemes text = (ls, rest) := by
  obtain ⟨hls, hrest⟩ := h.unique (cuts_lexemes text)
  rw [hls, hrest]

/-- What comes before the place at which no pattern takes anything is cut as it was. -/
theorem exists_before (h : Cuts text ls rest) : ∃ before, text = before ++ rest ∧ Cuts before ls [] := by
  induction h with
  | done => exact ⟨[], rfl, .done⟩
  | stuck => exact ⟨[], rfl, .done⟩
  | @lexeme l _ rest _ first _ ih =>
    obtain ⟨before, rfl, hbefore⟩ := ih
    refine ⟨l.text ++ before, (List.append_assoc ..).symm, .lexeme ?_ hbefore⟩
    rw [← List.append_assoc] at first
    exact Pattern.first?_of_append first (by rw [List.length_append]; exact Nat.le_add_right _ _)

/-- The rest of a text that has been cut is one of which no pattern takes anything. -/
theorem first?_rest (h : Cuts text ls rest) (hrest : rest ≠ []) : Pattern.first? rest = none := by
  induction h with
  | done => exact absurd rfl hrest
  | stuck nothing => exact nothing
  | lexeme _ _ ih => exact ih hrest

end Cuts

end FrontEnd.Token
