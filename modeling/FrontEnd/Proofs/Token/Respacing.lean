import FrontEnd.Proofs.Printing.Scanning
import FrontEnd.Proofs.Token.Partition

/-!
# Tokens with other blanks between them

What stands between two tokens does not matter to them. A token is cut from its own text
alone, and no pattern that makes tokens reaches past a blank: names and numbers are made of
letters, digits, underscores and dots, and what goes on after a blank is in no mark. So
tokens that are written with one blank between each two are found again, none of them joined
with another one or cut in two.
-/

namespace FrontEnd.Token

open Printing (Stops blank boundaries textOf)

variable {u rest text : List Char} {n : Nat}

/-! ## Names and numbers -/

/-- A character that a name or a number may hold. -/
def isWordChar (c : Char) : Bool := isNamePart c || c == '.'

theorem isWordChar_of_isNamePart {c : Char} (h : isNamePart c = true) : isWordChar c = true := by
  rw [isWordChar, h, Bool.true_or]

theorem isWordChar_of_mem_boundaries : ∀ c ∈ boundaries, isWordChar c = false :=
  Printing.forall_mem_boundaries.mpr (by decide)

theorem isSpace_of_isWordChar {c : Char} (h : isWordChar c = true) : isSpace c = false := by
  rw [isWordChar, Bool.or_eq_true, beq_iff_eq] at h
  rcases h with h | rfl
  · exact Printing.isSpace_of_isNamePart h
  · rfl

theorem forall_mem_take_nameLength (seen : Nat) (cs : List Char) :
    ∀ c ∈ cs.take (nameLength seen cs - seen), isWordChar c = true := by
  induction cs generalizing seen with
  | nil => simp
  | cons d ds ih =>
    have htake : (d :: ds).take (nameLength (seen + 1) ds - seen) =
        d :: ds.take (nameLength (seen + 1) ds - (seen + 1)) := by
      have hle := le_nameLength (seen + 1) ds
      rw [show nameLength (seen + 1) ds - seen = nameLength (seen + 1) ds - (seen + 1) + 1 by omega,
        List.take_succ_cons]
    rw [nameLength]
    split
    · next hpart =>
      rw [htake, List.forall_mem_cons]
      exact ⟨isWordChar_of_isNamePart hpart, ih (seen + 1)⟩
    · split
      · next hdot =>
        rw [Bool.and_eq_true] at hdot
        rw [htake, List.forall_mem_cons, isWordChar, hdot.1, Bool.or_true]
        exact ⟨rfl, ih (seen + 1)⟩
      · simp

namespace Digits

theorem isNamePart_of_isHex {c : Char} (h : isHex c = true) : isNamePart c = true := by
  simp only [isHex, isNamePart, isNameStart, Bool.or_eq_true, Bool.and_eq_true,
    decide_eq_true_eq] at h ⊢
  rcases h with (h | h) | h
  · exact .inr h
  · exact .inl (.inl (.inl ⟨h.1, Char.le_trans h.2 (by decide)⟩))
  · exact .inl (.inl (.inr ⟨h.1, Char.le_trans h.2 (by decide)⟩))

theorem isNamePart_of_digit (d : Digits) {c : Char} (h : d.digit c = true) :
    isNamePart c = true := by
  have hdecimal : isDecimal c = true → isNamePart c = true := fun hc => by
    rw [isNamePart, hc, Bool.or_true]
  cases d with
  | binary =>
    have hbit : c = '0' ∨ c = '1' := by simpa [digit, isBit] using h
    rcases hbit with rfl | rfl <;> decide
  | hexadecimal => exact isNamePart_of_isHex h
  | fraction | bareFraction | whole => exact hdecimal h

theorem forall_mem_take_run? {p : Char → Bool} (h : run? p text = some n) :
    ∀ c ∈ text.take n, p c = true := by
  obtain ⟨-, rfl⟩ := run?_eq_some.mp h
  rw [← List.prefix_iff_eq_take.mp (List.takeWhile_prefix p)]
  exact fun c hc => List.mem_takeWhile_imp hc

theorem forall_mem_take {d : Digits} (h : d.length? text = some n) :
    ∀ c ∈ text.take n, isWordChar c = true := by
  have hrun : ∀ {ds : List Char} {k : Nat}, run? d.digit ds = some k →
      ∀ c ∈ ds.take k, isWordChar c = true := fun hk c hc =>
    isWordChar_of_isNamePart (isNamePart_of_digit d (forall_mem_take_run? hk c hc))
  by_cases hd : d = fraction
  · subst hd
    obtain ⟨k, more, hk, hdrop, rfl⟩ := length?_fraction.mp h
    have hplaces : ∀ c ∈ more.takeWhile isDecimal, isWordChar c = true := fun c hc =>
      isWordChar_of_isNamePart (isNamePart_of_digit .whole (List.mem_takeWhile_imp hc))
    rw [Nat.add_assoc, Nat.add_comm 1, List.take_add, hdrop, List.take_succ_cons,
      ← List.prefix_iff_eq_take.mp (List.takeWhile_prefix isDecimal), List.forall_mem_append,
      List.forall_mem_cons]
    exact ⟨hrun hk, rfl, hplaces⟩
  · obtain ⟨ds, k, rfl, hk, rfl⟩ := (length?_of_ne_fraction hd).mp h
    rw [List.take_length_add_append, List.forall_mem_append]
    have hfront : d.front.all isWordChar = true := by cases d <;> rfl
    exact ⟨List.all_eq_true.mp hfront, hrun hk⟩

end Digits

theorem Suffix.forall_mem_take_atStart (text : List Char) :
    ∀ c ∈ text.take (atStart text).spelling.length, isWordChar c = true := by
  rw [atStart]
  cases h : written.find? (·.spelling.isPrefixOf text) with
  | none => simp [spelling]
  | some s =>
    have hprefix := List.find?_some h
    rw [List.isPrefixOf_iff_prefix] at hprefix
    have hspelling : s.spelling.all isWordChar = true := by cases s <;> rfl
    rw [Option.getD_some, ← List.prefix_iff_eq_take.mp hprefix]
    exact List.all_eq_true.mp hspelling

namespace Pattern

/-- Names and numbers are made of letters, digits, underscores and dots. -/
theorem forall_mem_take_of_word {p : Pattern} (hp : p = name ∨ p = number)
    (h : p.length? text = some n) : ∀ c ∈ text.take n, isWordChar c = true := by
  rcases hp with rfl | rfl
  · cases text with
    | nil => simp
    | cons c cs =>
      rw [length?] at h
      split at h
      · next hc =>
        cases h
        obtain ⟨k, hk⟩ := Nat.exists_eq_add_of_le' (le_nameLength 1 cs)
        have hcs := forall_mem_take_nameLength 1 cs
        rw [hk, Nat.add_sub_cancel] at hcs
        rw [hk, List.take_succ_cons, List.forall_mem_cons]
        exact ⟨isWordChar_of_isNamePart (isNamePart_of_isNameStart hc), hcs⟩
      · cases h
  · obtain ⟨m, hm, h⟩ := Option.bind_eq_some_iff.mp h
    obtain ⟨d, -, hd⟩ := List.exists_of_findSome?_eq_some hm
    cases h
    rw [List.take_add, List.forall_mem_append]
    exact ⟨Digits.forall_mem_take hd, Suffix.forall_mem_take_atStart _⟩

/-- A name or a number ends before a boundary, whatever comes after that. -/
theorem length?_append_of_word {p : Pattern} (hp : p = name ∨ p = number)
    (h : p.length? u = some u.length) (hrest : Stops rest) :
    p.length? (u ++ rest) = some u.length := by
  obtain ⟨m, hm⟩ := exists_length?_append h rest
  have hle : m ≤ u.length := by
    by_contra hlt
    rcases hrest.eq_nil_or with rfl | ⟨c, hc, rest, rfl⟩
    · rw [List.append_nil] at hm
      exact hlt (length?_le hm)
    · have hmem : c ∈ (u ++ c :: rest).take m := by
        obtain ⟨k, rfl⟩ := Nat.exists_eq_add_of_lt (Nat.lt_of_not_le hlt)
        rw [Nat.add_assoc, List.take_length_add_append, List.take_succ_cons]
        exact List.mem_append_right u List.mem_cons_self
      have hword := forall_mem_take_of_word hp hm c hmem
      rw [isWordChar_of_mem_boundaries c hc] at hword
      cases hword
  rw [hm, ← length?_of_append hm hle, h]

/-- Whether the pattern takes what says nothing. -/
def isGap : Pattern → Bool
  | space | lineComment | blockComment => true
  | name | number | terminator | mark _ => false

end Pattern

/-! ## Lexemes on their own -/

namespace Lexeme

/-- The lexeme is what a text of just its characters is cut into, and it is no gap. -/
structure IsWhole (l : Lexeme) : Prop where
  first : Pattern.first? l.text = some (l.pattern, l.text.length)
  isGap : l.pattern.isGap = false

variable {l : Lexeme}

theorem IsWhole.exists_cons (h : l.IsWhole) : ∃ c cs, l.text = c :: cs :=
  List.exists_cons_of_length_pos (Pattern.first?_pos h.first)

/-- A terminator is one character. -/
theorem IsWhole.eq_of_terminator (h : l.IsWhole) (hl : l.pattern = .terminator) :
    l.text = ['\n'] ∨ l.text = [';'] := by
  have hlength := Pattern.length?_of_first? h.first
  obtain ⟨c, cs, htext⟩ := h.exists_cons
  rw [hl, htext, Pattern.length?] at hlength
  split at hlength
  · next hc =>
    have hcs : cs = [] :=
      List.eq_nil_of_length_eq_zero (Nat.succ.inj (Option.some.inj hlength)).symm
    rw [isTerminator, Bool.or_eq_true, beq_iff_eq, beq_iff_eq] at hc
    rw [htext, hcs]
    rcases hc with rfl | rfl
    · exact .inl rfl
    · exact .inr rfl
  · cases hlength

/-- A mark is its spelling. -/
theorem IsWhole.eq_of_mark (h : l.IsWhole) {m : Mark} (hl : l.pattern = .mark m) :
    l.text = m.spelling := by
  have hlength := Pattern.length?_of_first? h.first
  rw [hl, Pattern.length?] at hlength
  split at hlength
  · next hprefix =>
    rw [List.isPrefixOf_iff_prefix] at hprefix
    exact (List.IsPrefix.eq_of_length hprefix (Option.some.inj hlength)).symm
  · cases hlength

/-- Only a name starts as names do, which are tried before all else. -/
theorem IsWhole.isNameStart_head (h : l.IsWhole) (hl : l.pattern ≠ .name) {c : Char}
    {cs : List Char} (htext : l.text = c :: cs) : isNameStart c = false := by
  by_contra hc
  rw [Bool.not_eq_false] at hc
  have hname : Pattern.name.length? (c :: cs) = some (nameLength 1 cs) := if_pos hc
  have hfirst := h.first
  rw [htext, Pattern.first?, Pattern.table, List.cons_append, List.findSome?_cons, hname] at hfirst
  exact hl (congrArg Prod.fst (Option.some.inj hfirst)).symm

/-- A whole lexeme is cut alike before a boundary. -/
theorem IsWhole.first?_append (h : l.IsWhole) (hrest : Stops rest) :
    Pattern.first? (l.text ++ rest) = some (l.pattern, l.text.length) := by
  have hlength := Pattern.length?_of_first? h.first
  have hgap := h.isGap
  cases hp : l.pattern with
  | name =>
    rw [hp] at hlength
    rw [Pattern.first?, Pattern.table, List.cons_append, List.findSome?_cons,
      Pattern.length?_append_of_word (.inl rfl) hlength hrest]
    rfl
  | number =>
    rw [hp] at hlength
    have hname : Pattern.name.length? (l.text ++ rest) = none := by
      obtain ⟨c, cs, htext⟩ := h.exists_cons
      have hc := h.isNameStart_head (by simp [hp]) htext
      rw [htext, List.cons_append, Pattern.length?, if_neg (by simp [hc])]
    rw [Pattern.first?, Pattern.table, List.cons_append, List.findSome?_cons, hname,
      List.cons_append, List.findSome?_cons,
      Pattern.length?_append_of_word (.inr rfl) hlength hrest]
    rfl
  | space | lineComment | blockComment =>
    rw [hp] at hgap
    cases hgap
  | terminator => rcases h.eq_of_terminator hp with htext | htext <;> rw [htext] <;> rfl
  | mark m =>
    rw [h.eq_of_mark hp]
    exact Printing.first?_mark m hrest

/-- No token starts with a blank. -/
theorem IsWhole.isSpace_head (h : l.IsWhole) : ∀ c ∈ (l.text ++ rest).head?, isSpace c = false := by
  have hlength := Pattern.length?_of_first? h.first
  have hgap := h.isGap
  obtain ⟨c, cs, htext⟩ := h.exists_cons
  have hword : l.pattern = .name ∨ l.pattern = .number → isSpace c = false := fun hp =>
    isSpace_of_isWordChar (Pattern.forall_mem_take_of_word hp hlength c (by simp [htext]))
  have hhead : isSpace c = false := by
    cases hp : l.pattern with
    | name => exact hword (.inl hp)
    | number => exact hword (.inr hp)
    | space | lineComment | blockComment =>
      rw [hp] at hgap
      cases hgap
    | terminator =>
      rcases h.eq_of_terminator hp with heq | heq <;> cases htext.symm.trans heq <;> rfl
    | mark m =>
      have heq := htext.symm.trans (h.eq_of_mark hp)
      cases m <;> cases heq <;> rfl
  rw [htext]
  rintro _ ⟨⟩
  exact hhead

end Lexeme

/-! ## Lexemes with blanks between them -/

variable {ls : List Lexeme}

/-- What is put between others does not come first. -/
theorem exists_intersperse_cons {α : Type} (sep a : α) (as : List α) :
    ∃ more, (a :: as).intersperse sep = a :: more := by
  cases as with
  | nil => exact ⟨[], rfl⟩
  | cons b bs => exact ⟨_, List.intersperse_cons_cons⟩

/-- Whole lexemes with a blank between each two are cut there again. -/
theorem cuts_intersperse (h : ∀ l ∈ ls, l.IsWhole) :
    Cuts (textOf (ls.intersperse blank)) (ls.intersperse blank) [] := by
  induction ls with
  | nil => exact .done
  | cons l rest ih =>
    obtain ⟨hl, hrest⟩ := List.forall_mem_cons.mp h
    cases rest with
    | nil => exact .lexeme (hl.first?_append .nil) .done
    | cons l' rest =>
      rw [List.intersperse_cons_cons, Printing.textOf_cons, Printing.textOf_cons]
      refine .lexeme (hl.first?_append (.cons (by decide) _)) (.lexeme (l := blank) ?_ (ih hrest))
      have hl' := (List.forall_mem_cons.mp hrest).1
      refine Printing.first?_blank ?_
      obtain ⟨more, hmore⟩ := exists_intersperse_cons blank l' rest
      rw [hmore, Printing.textOf_cons]
      exact hl'.isSpace_head

/-! ## Tokens -/

/-- The tokens differ at most in their place. -/
structure Same (t u : Token) : Prop where
  shape : t.shape = u.shape
  text : t.text = u.text

/-- The lexeme stands for what the token is, wherever that says something. -/
structure Lexeme.Gives (l : Lexeme) (t : Token) : Prop where
  isWhole : l.IsWhole
  text : t.text = String.ofList l.text
  kind : t.kind ≠ .endOfFile
  shape? : ∀ done, (t.shape = .terminator → afterTerminator done = false) →
    l.shape? done = .ok (some t.shape)

/-- Every terminator says something: it does not come first where a statement has ended, nor after
another one. -/
def EndsApart : Bool → List Token → Prop
  | _, [] => True
  | ended, t :: ts => (t.shape = .terminator → ended = false) ∧ EndsApart (t.shape = .terminator) ts

variable {file : String} {done done' ts : List Token} {offset stop : Nat}

/-- A lexeme that stands for something is no gap, and stands for the same wherever that says
something. -/
theorem Lexeme.shape?_eq_some {l : Lexeme} {shape : Shape} (h : l.shape? done = .ok (some shape)) :
    l.pattern.isGap = false ∧ (shape = .terminator → afterTerminator done = false) ∧
      ∀ done', (shape = .terminator → afterTerminator done' = false) →
        l.shape? done' = .ok (some shape) := by
  unfold Lexeme.shape? at h ⊢
  cases hp : l.pattern with
  | name =>
    rw [hp] at h
    cases h
    refine ⟨rfl, ?_, fun _ _ => rfl⟩
    unfold shapeOfName
    split <;> nofun
  | number =>
    rw [hp] at h
    dsimp only at h
    split at h
    · cases h
      exact ⟨rfl, nofun, fun _ _ => rfl⟩
    · cases h
  | space | lineComment | blockComment =>
    rw [hp] at h
    cases h
  | terminator =>
    rw [hp] at h
    dsimp only at h
    split at h
    · cases h
    · next hafter =>
      cases h
      rw [Bool.not_eq_true] at hafter
      exact ⟨rfl, fun _ => hafter, fun done' hdone' => by rw [hdone' rfl]; rfl⟩
  | mark m =>
    rw [hp] at h
    cases h
    exact ⟨rfl, nofun, fun _ _ => rfl⟩

/-- The lexemes of a text that stand for something give its tokens. -/
theorem exists_gives (hcuts : Cuts text ls [])
    (h : assemble file done offset ls = .ok (done', stop)) :
    ∃ ks ts, done' = ts.reverse ++ done ∧ List.Forall₂ Lexeme.Gives ks ts ∧
      EndsApart (afterTerminator done) ts := by
  induction ls generalizing text done offset with
  | nil =>
    cases h
    exact ⟨[], [], rfl, .nil, trivial⟩
  | cons l ls ih =>
    cases hcuts with
    | lexeme first others =>
      rw [assemble] at h
      cases hshape : l.shape? done with
      | error cause =>
        rw [hshape] at h
        cases h
      | ok shape =>
        rw [hshape] at h
        cases shape with
        | none => exact ih others h
        | some shape =>
          obtain ⟨ks, ts, rfl, hgives, hends⟩ := ih others h
          obtain ⟨hgap, hfirst, hshape'⟩ := Lexeme.shape?_eq_some hshape
          have hwhole : l.IsWhole := ⟨Pattern.first?_of_append first (Nat.le_refl _), hgap⟩
          refine ⟨l :: ks, ⟨shape, String.ofList l.text, ⟨offset, _⟩⟩ :: ts, ?_,
            .cons ⟨hwhole, rfl, (kind_of_shape? hshape).1, hshape'⟩ hgives, hfirst, hends⟩
          rw [List.reverse_cons, List.append_assoc, List.singleton_append]

/-- The same tokens are made of lexemes with blanks between them. -/
theorem assemble_intersperse (file : String) {ks : List Lexeme}
    (h : List.Forall₂ Lexeme.Gives ks ts) (hends : EndsApart (afterTerminator done) ts)
    (offset : Nat) :
    ∃ ts' stop, assemble file done offset (ks.intersperse blank) = .ok (ts'.reverse ++ done, stop) ∧
      List.Forall₂ Same ts ts' := by
  induction h generalizing done offset with
  | nil => exact ⟨[], offset, rfl, .nil⟩
  | @cons l t ks ts hgives _ ih =>
    let t' : Token := ⟨t.shape, String.ofList l.text, ⟨offset, offset + Text.byteLength l.text⟩⟩
    have hskip : ∃ offset', assemble file done offset ((l :: ks).intersperse blank) =
        assemble file (t' :: done) offset' (ks.intersperse blank) := by
      cases ks with
      | nil =>
        refine ⟨offset + Text.byteLength l.text, ?_⟩
        rw [List.intersperse_singleton, assemble, hgives.shape? done hends.1]
        rfl
      | cons l' ks =>
        rw [List.intersperse_cons_cons, assemble, hgives.shape? done hends.1]
        exact ⟨_, rfl⟩
    obtain ⟨offset', hoffset⟩ := hskip
    have hrest : EndsApart (afterTerminator (t' :: done)) ts := hends.2
    obtain ⟨ts', stop, hts', hsame⟩ := ih hrest offset'
    refine ⟨t' :: ts', stop, ?_, .cons ⟨rfl, hgives.text⟩ hsame⟩
    rw [hoffset, hts', List.reverse_cons, List.append_assoc, List.singleton_append]

/-! ## Writing the tokens again -/

/-- The texts of tokens with one blank between each two. The end of the file has no text of its
own. -/
def respace (tokens : List Token) : String :=
  " ".intercalate ((tokens.filter (·.kind ≠ .endOfFile)).map (·.text))

theorem textOf_intersperse (ls : List Lexeme) :
    textOf (ls.intersperse blank) = [' '].intercalate (ls.map Lexeme.text) := by
  unfold List.intercalate
  induction ls with
  | nil => rfl
  | cons l rest ih =>
    cases rest with
    | nil => rfl
    | cons l' rest =>
      rw [List.intersperse_cons_cons, Printing.textOf_cons, Printing.textOf_cons, ih]
      rfl

/-- The texts of tokens are those of the lexemes that give them. -/
theorem respace_eq {ks : List Lexeme} (h : List.Forall₂ Lexeme.Gives ks ts) {eof : Token}
    (heof : eof.kind = .endOfFile) :
    respace (ts ++ [eof]) = String.ofList (textOf (ks.intersperse blank)) := by
  have hfilter : (ts ++ [eof]).filter (·.kind ≠ .endOfFile) = ts := by
    have hts : ∀ t ∈ ts, t.kind ≠ .endOfFile := fun t ht => by
      obtain ⟨l, -, hl⟩ := exists_mem_of_forall₂ h ht
      exact hl.kind
    rw [List.filter_append, List.filter_eq_self.mpr (by simpa using hts),
      List.filter_cons_of_neg (by simpa using heof)]
    exact List.append_nil ts
  have htexts : (ts.map (·.text)).map String.toList = ks.map Lexeme.text := by
    rw [List.map_map, ← List.forall₂_eq_eq_eq, List.forall₂_map_left_iff,
      List.forall₂_map_right_iff]
    refine List.Forall₂.flip (h.imp fun l t hl => ?_)
    exact (congrArg String.toList hl.text).trans String.toList_ofList
  rw [respace, hfilter, textOf_intersperse, ← htexts]
  exact (String.ofList_toList).symm.trans (congrArg String.ofList String.toList_intercalate)

/-- **Tokens do not depend on the blanks between them.** The tokens of a text that is scanned are
found again where their texts are written with one blank between each two. -/
theorem scan_respace {file source : String} {buffer : Buffer}
    (h : Buffer.scan file source = .ok buffer) (file' : String) :
    ∃ buffer', Buffer.scan file' (respace buffer.tokens) = .ok buffer' ∧
      List.Forall₂ Same buffer.tokens buffer'.tokens := by
  have hcuts := cuts_lexemes source.toList
  rw [Buffer.scan] at h
  dsimp only at h
  split at h
  · cases h
  · next done offset hassemble =>
    split at h
    · cases h
    · next hrest =>
      cases h
      rw [hrest] at hcuts
      obtain ⟨ks, ts, rfl, hgives, hends⟩ := exists_gives hcuts hassemble
      obtain ⟨ts', stop, hassemble', hsame⟩ := assemble_intersperse file' hgives hends 0
      have hwhole : ∀ l ∈ ks, l.IsWhole := fun l hl => by
        obtain ⟨t, -, ht⟩ := exists_mem_of_forall₂ (R := flip Lexeme.Gives) hgives.flip hl
        exact ht.isWhole
      rw [List.append_nil, List.reverse_cons, List.reverse_reverse, respace_eq hgives rfl]
      refine ⟨_, scan_of_cuts (cuts_intersperse hwhole) hassemble', ?_⟩
      rw [List.append_nil, List.reverse_cons, List.reverse_reverse]
      exact List.rel_append hsame (.cons ⟨rfl, rfl⟩ .nil)

theorem scan_respace_joined :
    ∃ buffer, Buffer.scan unnamed "a.b/*c*/.5i8x<<=/*\n\n;0b2u" = .ok buffer ∧
      respace buffer.tokens = "a.b .5i8 x <<= / * \n 0 b2u" ∧
      ∃ buffer', Buffer.scan unnamed (respace buffer.tokens) = .ok buffer' ∧
        List.Forall₂ Same buffer.tokens buffer'.tokens := by
  have hscan : ∃ buffer, Buffer.scan unnamed "a.b/*c*/.5i8x<<=/*\n\n;0b2u" = .ok buffer ∧
      respace buffer.tokens = "a.b .5i8 x <<= / * \n 0 b2u" := ⟨_, rfl, by decide +kernel⟩
  obtain ⟨buffer, hok, hrespace⟩ := hscan
  exact ⟨buffer, hok, hrespace, scan_respace hok unnamed⟩

end FrontEnd.Token
