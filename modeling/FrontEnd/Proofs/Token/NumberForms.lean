import FrontEnd.Proofs.Token.Languages

/-!
# Forms of numbers

Each form of digits measures its language. Where two forms are found at one place, the one that is
tried first reaches further, so the order of the forms loses nothing; and a suffix that starts with
a digit of the form belongs to the digits, which reach over it.
-/

namespace FrontEnd.Token

variable {text u v rest : List Char} {n : Nat}

/-! ## Numbers -/

namespace Digits

theorem language_of_ne_fraction {d : Digits} (hd : d ≠ fraction) :
    d.language = just d.front * someOf d.digit := by
  cases d with
  | fraction => exact absurd rfl hd
  | whole => exact (one_mul _).symm
  | _ => rfl

theorem mem_fraction : v ∈ fraction.language ↔ ∃ w places, v = w ++ '.' :: places ∧
    (w ≠ [] ∧ ∀ c ∈ w, isDecimal c = true) ∧ ∀ c ∈ places, isDecimal c = true := by
  rw [language, Language.mem_mul]
  constructor
  · rintro ⟨w, hw, _, hrest, rfl⟩
    obtain ⟨places, hplaces, rfl⟩ := mem_just_mul.mp hrest
    exact ⟨w, places, rfl, mem_someOf.mp hw, mem_kstar_oneOf.mp hplaces⟩
  · rintro ⟨w, places, rfl, hw, hplaces⟩
    exact ⟨w, mem_someOf.mpr hw, _, mem_just_mul.mpr ⟨places, mem_kstar_oneOf.mpr hplaces, rfl⟩, rfl⟩

/-- The whole part of a fraction ends at its point. -/
theorem length?_fraction_append {w more : List Char} (hne : w ≠ []) (hw : ∀ c ∈ w, isDecimal c = true) :
    fraction.length? (w ++ '.' :: more) =
      some (w.length + 1 + (more.takeWhile isDecimal).length) := by
  have hrun : ((w ++ '.' :: more).takeWhile isDecimal).length = w.length :=
    congrArg List.length (takeWhile_append_of_stops hw (by rintro _ ⟨⟩; decide))
  have hpos := List.length_pos_iff.mpr hne
  exact length?_fraction.mpr ⟨w.length, more, run?_eq_some.mpr ⟨by omega, hrun⟩,
    List.drop_left, rfl⟩

theorem measures (d : Digits) : Measures d.language d.length? := by
  by_cases hd : d = fraction
  · subst hd
    constructor
    · intro text n h
      obtain ⟨k, more, hk, hdrop, rfl⟩ := length?_fraction.mp h
      obtain ⟨hpos, rfl⟩ := run?_eq_some.mp hk
      have hw : ∀ c ∈ text.takeWhile isDecimal, isDecimal c = true :=
        fun c hc => List.mem_takeWhile_imp hc
      have hne : text.takeWhile isDecimal ≠ [] := fun hnil => hpos (congrArg List.length hnil)
      have htext := List.take_append_drop (text.takeWhile isDecimal).length text
      rw [← List.prefix_iff_eq_take.mp (List.takeWhile_prefix isDecimal), hdrop] at htext
      refine ⟨text.takeWhile isDecimal ++ '.' :: more.takeWhile isDecimal,
        mem_fraction.mpr ⟨_, _, rfl, ⟨hne, hw⟩, fun c hc => List.mem_takeWhile_imp hc⟩, ?_, ?_⟩
      · have hplaces : '.' :: more.takeWhile isDecimal <+: '.' :: more :=
          List.cons_prefix_cons.mpr ⟨rfl, List.takeWhile_prefix isDecimal⟩
        have hprefix := (List.prefix_append_right_inj (text.takeWhile isDecimal)).mpr hplaces
        rwa [htext] at hprefix
      · rw [List.length_append, List.length_cons]
        omega
    · intro text v hv h
      obtain ⟨w, places, rfl, ⟨hne, hw⟩, hplaces⟩ := mem_fraction.mp hv
      obtain ⟨rest, rfl⟩ := h
      rw [List.append_assoc, List.cons_append]
      have hle := length_le_takeWhile hplaces (List.prefix_append places rest)
      refine ⟨_, length?_fraction_append hne hw, ?_⟩
      rw [List.length_append, List.length_cons]
      omega
  · rw [language_of_ne_fraction hd]
    constructor
    · intro text n h
      obtain ⟨ds, k, rfl, hk, rfl⟩ := (length?_of_ne_fraction hd).mp h
      obtain ⟨u, hu, hprefix, rfl⟩ := (measures_someOf d.digit).sound hk
      refine ⟨d.front ++ u, mem_just_mul.mpr ⟨u, hu, rfl⟩, ?_, List.length_append⟩
      exact (List.prefix_append_right_inj d.front).mpr hprefix
    · intro text v hv h
      obtain ⟨w, hw, rfl⟩ := mem_just_mul.mp hv
      obtain ⟨rest, rfl⟩ := h
      obtain ⟨k, hk, hle⟩ := (measures_someOf d.digit).greatest hw (List.prefix_append w rest)
      refine ⟨_, (length?_of_ne_fraction hd).mpr ⟨w ++ rest, k, List.append_assoc .., hk, rfl⟩, ?_⟩
      rw [List.length_append]
      omega

theorem exists_cons_of_mem {d : Digits} (hu : u ∈ d.language) :
    ∃ c cs, u = c :: cs ∧ (isDecimal c || c == '.') = true := by
  by_cases hd : d = fraction
  · subst hd
    obtain ⟨w, places, rfl, ⟨hne, hw⟩, -⟩ := mem_fraction.mp hu
    obtain ⟨c, cs, rfl⟩ := List.exists_cons_of_ne_nil hne
    exact ⟨c, _, rfl, by rw [hw c List.mem_cons_self, Bool.true_or]⟩
  · rw [language_of_ne_fraction hd] at hu
    obtain ⟨w, hw, rfl⟩ := mem_just_mul.mp hu
    cases d with
    | fraction => exact absurd rfl hd
    | whole =>
      obtain ⟨hne, hw⟩ := mem_someOf.mp hw
      obtain ⟨c, cs, rfl⟩ := List.exists_cons_of_ne_nil hne
      exact ⟨c, cs, rfl, by rw [show isDecimal c = true from hw c List.mem_cons_self, Bool.true_or]⟩
    | _ => exact ⟨_, _, rfl, rfl⟩

/-- A form takes the whole of one of its texts, unless a digit follows. -/
theorem length?_append {d : Digits} (hu : u ∈ d.language)
    (hrest : ∀ c ∈ rest.head?, d.digit c = false) : d.length? (u ++ rest) = some u.length := by
  by_cases hd : d = fraction
  · subst hd
    obtain ⟨w, places, rfl, ⟨hne, hw⟩, hplaces⟩ := mem_fraction.mp hu
    rw [List.append_assoc, List.cons_append, length?_fraction_append hne hw,
      takeWhile_append_of_stops hplaces hrest, List.length_append, List.length_cons]
    congr 1
    omega
  · rw [language_of_ne_fraction hd] at hu
    obtain ⟨w, hw, rfl⟩ := mem_just_mul.mp hu
    obtain ⟨hne, hw⟩ := mem_someOf.mp hw
    have hpos := List.length_pos_iff.mpr hne
    refine (length?_of_ne_fraction hd).mpr ⟨w ++ rest, w.length, List.append_assoc .., ?_,
      List.length_append⟩
    exact run?_eq_some.mpr ⟨by omega, congrArg List.length (takeWhile_append_of_stops hw hrest)⟩

end Digits

namespace Suffix

/-- What a suffix starts with is a digit in base sixteen alone, and then all of it is. -/
theorem isHex_of_digit {s : Suffix} {d : Digits} {c : Char} (hc : c ∈ s.spelling.head?)
    (hd : d.digit c = true) : d = .hexadecimal ∧ ∀ c ∈ s.spelling, isHex c = true := by
  revert c
  cases d <;> cases s <;> simp [spelling, Digits.digit] <;> decide

/-- A suffix stands before those that it begins with. -/
theorem pairwise_written :
    written.Pairwise fun s s' =>
      s.spelling <+: s'.spelling → s'.spelling.length ≤ s.spelling.length := by
  decide

/-- Of the suffixes that a text starts with, the longest one is found. -/
theorem length_le_atStart {s : Suffix} (h : s.spelling <+: text) :
    s.spelling.length ≤ (atStart text).spelling.length := by
  by_cases hs : s = none
  · rw [hs]
    exact Nat.zero_le _
  · have hmem : s ∈ written := by
      cases s with
      | none => exact absurd rfl hs
      | _ => decide
    have hfound : Option.guard (fun s => s.spelling.isPrefixOf text) s = some s :=
      Option.guard_eq_some_iff.mpr ⟨rfl, List.isPrefixOf_iff_prefix.mpr h⟩
    have hpairwise : written.Pairwise fun s s' => ∀ t t',
        Option.guard (fun s => s.spelling.isPrefixOf text) s = some t →
        Option.guard (fun s => s.spelling.isPrefixOf text) s' = some t' →
        t'.spelling.length ≤ t.spelling.length := by
      refine pairwise_written.imp fun {s s'} hss t t' ht ht' => ?_
      obtain ⟨rfl, hstarts⟩ := Option.guard_eq_some_iff.mp ht
      obtain ⟨rfl, hstarts'⟩ := Option.guard_eq_some_iff.mp ht'
      exact length_le_of_prefixes (List.isPrefixOf_iff_prefix.mp hstarts)
        (List.isPrefixOf_iff_prefix.mp hstarts') hss
    obtain ⟨t, ht, hle⟩ := exists_findSome?_of_pairwise hpairwise hmem hfound
    rw [atStart, List.find?_eq_findSome?_guard, ht]
    exact hle

end Suffix

/-- How much of a text a number takes up whose digits take up so much. -/
def lengthWithSuffix (text : List Char) (n : Nat) : Nat :=
  n + (Suffix.atStart (text.drop n)).spelling.length

namespace Digits

theorem run?_zero {c : Char} {cs : List Char} (hc : isDecimal c = false) :
    run? isDecimal ('0' :: c :: cs) = some 1 := by
  have hzero : isDecimal '0' = true := by decide
  rw [run?_eq_some, List.takeWhile_cons_of_pos hzero, List.takeWhile_cons, hc]
  exact ⟨Nat.one_ne_zero, rfl⟩

/-- Digits alone end where other digits that are tried before them go on, and no suffix stands there. -/
theorem lengthWithSuffix_whole_le {d : Digits} (hd : d ≠ whole) {k k' : Nat}
    (h : d.length? text = some k) (h' : whole.length? text = some k') :
    lengthWithSuffix text k' ≤ k := by
  have hpos := length?_pos h
  change run? isDecimal text = some k' at h'
  cases d with
  | whole => exact absurd rfl hd
  | fraction =>
    obtain ⟨m, more, hm, hdrop, rfl⟩ := length?_fraction.mp h
    obtain rfl := Option.some.inj (hm.symm.trans h')
    have hnone : Suffix.atStart ('.' :: more) = .none := rfl
    rw [lengthWithSuffix, hdrop, hnone]
    show m ≤ _
    omega
  | bareFraction =>
    obtain ⟨ds, m, rfl, -, -⟩ := (length?_of_ne_fraction (by decide)).mp h
    cases h'
  | binary | hexadecimal =>
    obtain ⟨ds, m, rfl, -, -⟩ := (length?_of_ne_fraction (by decide)).mp h
    cases (run?_zero rfl).symm.trans h'
    exact hpos

theorem length?_fraction_front {d : Digits} (hd : d ≠ whole) (hd' : d ≠ fraction) (ds : List Char) :
    fraction.length? (d.front ++ ds) = none := by
  rw [Option.eq_none_iff_forall_ne_some]
  intro n h
  obtain ⟨k, more, hk, hdrop, -⟩ := length?_fraction.mp h
  cases d with
  | whole => exact hd rfl
  | fraction => exact hd' rfl
  | bareFraction => cases hk
  | binary | hexadecimal =>
    cases (run?_zero rfl).symm.trans hk
    cases hdrop

/-- No two forms are found at one place, but for digits alone. -/
theorem length?_eq_none_of_other {d d' : Digits} (hd : d ≠ whole) (hd' : d' ≠ whole) (hne : d ≠ d')
    {k : Nat} (h : d.length? text = some k) : d'.length? text = none := by
  rw [Option.eq_none_iff_forall_ne_some]
  intro k' h'
  by_cases hf : d = fraction
  · subst hf
    obtain ⟨ds, -, rfl, -, -⟩ := (length?_of_ne_fraction hne.symm).mp h'
    rw [length?_fraction_front hd' hne.symm] at h
    cases h
  · obtain ⟨ds, -, rfl, -, -⟩ := (length?_of_ne_fraction hf).mp h
    by_cases hf' : d' = fraction
    · subst hf'
      rw [length?_fraction_front hd hf] at h'
      cases h'
    · obtain ⟨ds', -, heq, -, -⟩ := (length?_of_ne_fraction hf').mp h'
      cases d <;> cases d' <;> simp_all [front]

/-- The first form found at a place takes up as much there as any other, each with its suffix. -/
theorem pairwise_all (text : List Char) : all.Pairwise fun d d' => ∀ k k',
    d.length? text = some k → d'.length? text = some k' →
    lengthWithSuffix text k' ≤ lengthWithSuffix text k := by
  have hlater : all.Pairwise fun d d' => d ≠ whole ∧ d ≠ d' := by decide
  refine hlater.imp fun {d d'} hdd k k' h h' => ?_
  obtain ⟨hd, hne⟩ := hdd
  by_cases hd' : d' = whole
  · subst hd'
    have hle := lengthWithSuffix_whole_le hd h h'
    unfold lengthWithSuffix at hle ⊢
    omega
  · rw [length?_eq_none_of_other hd hd' hne h] at h'
    cases h'

/-- Where a suffix starts with a digit of the form, it is one run of digits with those before it. -/
theorem append_suffix_mem {d : Digits} {s : Suffix} {c : Char} (hu : u ∈ d.language)
    (hdigit : d.digit c = true) (hc : c ∈ s.spelling.head?) : u ++ s.spelling ∈ d.language := by
  obtain ⟨rfl, hhex⟩ := Suffix.isHex_of_digit hc hdigit
  obtain ⟨w, hw, rfl⟩ := mem_just_mul.mp hu
  obtain ⟨hne, hw⟩ := mem_someOf.mp hw
  refine mem_just_mul.mpr ⟨w ++ s.spelling, mem_someOf.mpr ⟨?_, ?_⟩, List.append_assoc ..⟩
  · exact fun hnil => hne (List.append_eq_nil_iff.mp hnil).1
  · exact List.forall_mem_append.mpr ⟨hw, hhex⟩

/-- Digits with a suffix are no longer than the digits found there with the suffix after them. -/
theorem length_append_suffix_le {d : Digits} {s : Suffix} (hu : u ∈ d.language)
    (h : u ++ s.spelling <+: text) {k : Nat} (hk : d.length? text = some k) :
    (u ++ s.spelling).length ≤ lengthWithSuffix text k := by
  obtain ⟨rest, rfl⟩ := h
  rw [List.append_assoc] at hk ⊢
  by_cases hdigit : ∀ c ∈ (s.spelling ++ rest).head?, d.digit c = false
  · obtain rfl := Option.some.inj ((length?_append hu hdigit).symm.trans hk)
    rw [lengthWithSuffix, List.drop_left, List.length_append]
    have hle := Suffix.length_le_atStart (List.prefix_append s.spelling rest)
    omega
  · have hall : u ++ s.spelling ∈ d.language := by
      by_cases hs : s.spelling = []
      · rwa [hs, List.append_nil]
      · obtain ⟨c, cs, hspelling⟩ := List.exists_cons_of_ne_nil hs
        refine append_suffix_mem (c := c) hu ?_ (by rw [hspelling]; rfl)
        by_contra hc
        refine hdigit ?_
        rw [hspelling]
        rintro _ ⟨⟩
        exact Bool.eq_false_iff.mpr hc
    obtain ⟨k', hk', hle⟩ := (measures d).greatest hall
      (List.prefix_append (u ++ s.spelling) rest)
    rw [List.append_assoc] at hk'
    obtain rfl := Option.some.inj (hk'.symm.trans hk)
    rw [lengthWithSuffix]
    omega

end Digits

theorem measures_number : Measures Pattern.number.language Pattern.number.length? where
  sound {text n} h := by
    obtain ⟨k, hk, h⟩ := Option.bind_eq_some_iff.mp h
    obtain ⟨d, -, hd⟩ := List.exists_of_findSome?_eq_some hk
    cases h
    obtain ⟨u, hu, ⟨rest, rfl⟩, rfl⟩ := (Digits.measures d).sound hd
    rw [List.drop_left]
    refine ⟨u ++ (Suffix.atStart rest).spelling, ?_, ?_, List.length_append⟩
    · exact ⟨d, _, u, hu, rfl⟩
    · exact (List.prefix_append_right_inj u).mpr (Suffix.atStart_prefix rest)
  greatest {text v} hv h := by
    obtain ⟨d, s, u, hd, rfl⟩ := hv
    obtain ⟨k, hk, -⟩ := (Digits.measures d).greatest hd ((List.prefix_append u _).trans h)
    have hall : d ∈ Digits.all := by cases d <;> decide
    obtain ⟨k', hk', hle⟩ := exists_findSome?_of_pairwise (Digits.pairwise_all text) hall hk
    have hlength := Digits.length_append_suffix_le hd h hk
    exact ⟨_, Option.bind_eq_some_iff.mpr ⟨k', hk', rfl⟩, Nat.le_trans hlength hle⟩

end FrontEnd.Token
