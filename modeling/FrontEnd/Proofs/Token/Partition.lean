import FrontEnd.Proofs.Token.Lexemes
import FrontEnd.Proofs.Token.Places

/-!
# Tokens partition the text

Every character of a text belongs to one token, or to a gap that says nothing: blanks,
comments, and terminators that follow another one. This holds of every text that can be
cut into tokens, and up to the place of the failure of every text that cannot.
-/

namespace FrontEnd.Token

open Text (Position byteLength byteLength_append byteLength_nil byteLength_cons)

/-- A terminator would say nothing after the token: there is none, or it is a terminator itself. -/
def Ended (previous : Option Token) : Prop := ∀ t ∈ previous, t.kind = .terminator

/-- A gap between tokens, which is made of blanks, comments and terminators. The latter occur only
where the token before is one, or there is none. A line comment goes up to the end of its line, and a
block comment up to the first end mark. `rest` is the text after the gap. -/
inductive IsGap (previous : Option Token) (rest : List Char) : List Char → Prop
  | nil : IsGap previous rest []
  | blank {c : Char} {gap : List Char} (space : isSpace c = true) (more : IsGap previous rest gap) :
    IsGap previous rest (c :: gap)
  | lineComment {body gap : List Char} (oneLine : '\n' ∉ body)
    (lineEnd : ∀ c ∈ (gap ++ rest).head?, c = '\n') (more : IsGap previous rest gap) :
    IsGap previous rest ('/' :: '/' :: (body ++ gap))
  | blockComment {body gap : List Char} (firstEnd : ¬['*', '/'] <:+: body ++ ['*'])
    (more : IsGap previous rest gap) :
    IsGap previous rest ('/' :: '*' :: (body ++ '*' :: '/' :: gap))
  | terminator {c : Char} {gap : List Char} (ends : isTerminator c = true) (ended : Ended previous)
    (more : IsGap previous rest gap) : IsGap previous rest (c :: gap)

/-- The tokens partition a text. Offsets count bytes. -/
structure Partitions (text : List Char) (tokens : List Token) : Prop where
  /-- There is one end of file. It comes last and takes up no text. -/
  endOfFile : ∃ ts, tokens = ts ++ [⟨.endOfFile, "EOF", ⟨byteLength text, byteLength text⟩⟩] ∧
    ∀ t ∈ ts, t.kind ≠ .endOfFile
  /-- All others take up some text, which is theirs. -/
  spanned : ∀ t ∈ tokens, t.kind ≠ .endOfFile → t.span.start < t.span.stop ∧
    ∃ before after, text = before ++ t.text.toList ++ after ∧ byteLength before = t.span.start ∧
      byteLength (before ++ t.text.toList) = t.span.stop
  /-- Each starts where the ones before it stop, or later. -/
  increasing : tokens.Pairwise fun t u => t.span.stop ≤ u.span.start
  /-- What is before a token and behind the one before it is a gap. -/
  gaps : ∀ before t after, tokens = before ++ t :: after → ∃ left gap right,
    text = left ++ gap ++ right ∧
      byteLength left = (before.getLast?.map fun u => u.span.stop).getD 0 ∧
      byteLength (left ++ gap) = t.span.start ∧ IsGap before.getLast? right gap
  /-- No terminator comes first or after another one. -/
  terminators : ∀ before t after, tokens = before ++ t :: after → t.kind = .terminator →
    ¬Ended before.getLast?

/-! ## Gaps -/

section IsGap

variable {previous : Option Token} {rest gap gap' : List Char}

theorem IsGap.append (h : IsGap previous (gap' ++ rest) gap) (h' : IsGap previous rest gap') :
    IsGap previous rest (gap ++ gap') := by
  induction h with
  | nil => exact h'
  | blank space _ ih => exact .blank space ih
  | @lineComment body gap oneLine lineEnd _ ih =>
    rw [List.cons_append, List.cons_append, List.append_assoc]
    exact .lineComment oneLine (by rwa [List.append_assoc]) ih
  | @blockComment body gap firstEnd _ ih =>
    rw [List.cons_append, List.cons_append, List.append_assoc]
    exact .blockComment firstEnd ih
  | terminator ends ended _ ih => exact .terminator ends ended ih

theorem isGap_blanks (h : ∀ c ∈ gap, isSpace c = true) : IsGap previous rest gap := by
  induction gap with
  | nil => exact .nil
  | cons c gap ih =>
    obtain ⟨hc, hgap⟩ := List.forall_mem_cons.mp h
    exact .blank hc (ih hgap)

/-- A block comment reaches up to the first end mark. -/
theorem exists_of_commentLength? {seen n : Nat} {cs : List Char}
    (h : commentLength? seen cs = some n) :
    ∃ body more, cs = body ++ '*' :: '/' :: more ∧ n = seen + body.length + 2 ∧
      ¬['*', '/'] <:+: body ++ ['*'] := by
  induction cs generalizing seen with
  | nil => cases h
  | cons c cs ih =>
    rw [commentLength?] at h
    split at h
    · next hend =>
      cases h
      rw [Bool.and_eq_true, beq_iff_eq, beq_iff_eq, List.head?_eq_some_iff] at hend
      obtain ⟨rfl, more, rfl⟩ := hend
      exact ⟨[], more, rfl, rfl, by decide⟩
    · next hend =>
      obtain ⟨body, more, rfl, rfl, hfirst⟩ := ih h
      refine ⟨c :: body, more, rfl, by rw [List.length_cons]; omega, ?_⟩
      rw [List.cons_append, List.infix_cons_iff]
      rintro (hstart | hlater)
      · -- An end mark that starts at `c` would have ended the comment before.
        obtain ⟨rfl, hslash⟩ := List.cons_prefix_cons.mp hstart
        refine hend ?_
        cases body with
        | nil => simp at hslash
        | cons d body =>
          obtain ⟨rfl, -⟩ := List.cons_prefix_cons.mp hslash
          rfl
      · exact hfirst hlater

/-- A run that is all of the first part of a text stops where the other part starts. -/
theorem run_eq_left {p : Char → Bool} {u : List Char}
    (h : ((u ++ rest).takeWhile p).length = u.length) :
    (∀ c ∈ u, p c = true) ∧ ∀ c ∈ rest.head?, p c = false := by
  have hu : u.takeWhile p = (u ++ rest).takeWhile p := takeWhile_of_append (Nat.le_of_eq h)
  have hall : u.takeWhile p = u := (List.takeWhile_prefix p).eq_of_length (by rw [hu, h])
  rw [hall] at hu
  constructor
  · rw [← hall]
    exact fun c hc => List.mem_takeWhile_imp hc
  · rw [List.takeWhile_append, if_pos (congrArg List.length hall)] at hu
    have hrest : rest.takeWhile p = [] := List.self_eq_append_right.mp hu
    intro c hc
    cases rest with
    | nil => cases hc
    | cons d ds =>
      cases hc
      by_contra hp
      rw [List.takeWhile_cons_of_pos (Bool.not_eq_false _ ▸ hp)] at hrest
      cases hrest

theorem isGap_space {u : List Char} (h : Pattern.space.length? (u ++ rest) = some u.length) :
    IsGap previous rest u :=
  isGap_blanks (run_eq_left (Digits.run?_eq_some.mp h).2).1

theorem isGap_lineComment {u : List Char}
    (h : Pattern.lineComment.length? (u ++ rest) = some u.length) : IsGap previous rest u := by
  unfold Pattern.length? at h
  split at h <;> try cases ‹Pattern.lineComment = _›
  · next more heq =>
    have hlength := Option.some.inj h
    obtain ⟨body, rfl, rfl⟩ := exists_of_append_eq ['/', '/'] heq (Nat.le_of_add_right_le hlength.le)
    rw [List.length_append] at hlength
    obtain ⟨hbody, hend⟩ := run_eq_left (Nat.add_left_cancel hlength)
    have hline : IsGap previous rest ('/' :: '/' :: (body ++ [])) := by
      refine .lineComment (fun hmem => ?_) (fun c hc => ?_) .nil
      · have hne := hbody _ hmem
        simp at hne
      · have heq := hend c hc
        simpa using heq
    rwa [List.append_nil] at hline
  · cases h

theorem isGap_blockComment {u : List Char}
    (h : Pattern.blockComment.length? (u ++ rest) = some u.length) : IsGap previous rest u := by
  unfold Pattern.length? at h
  split at h <;> try cases ‹Pattern.blockComment = _›
  · next more heq =>
    have hlt := lt_commentLength? h
    obtain ⟨v, rfl, rfl⟩ := exists_of_append_eq ['/', '*'] heq (by simp; omega)
    have hv := commentLength?_of_append h (by rw [List.length_append]; rfl)
    obtain ⟨body, more, rfl, hlength, hfirst⟩ := exists_of_commentLength? hv
    simp only [List.length_append, List.length_cons, List.length_nil] at hlength
    have hmore : more = [] := List.eq_nil_of_length_eq_zero (by omega)
    rw [hmore]
    exact .blockComment hfirst .nil
  · cases h

theorem isGap_terminator {u : List Char} (hended : Ended previous)
    (h : Pattern.terminator.length? (u ++ rest) = some u.length) : IsGap previous rest u := by
  have hpos : 0 < u.length := Pattern.length?_pos h
  obtain ⟨c, cs, rfl⟩ := List.exists_cons_of_length_pos hpos
  rw [List.cons_append, Pattern.length?] at h
  split at h
  · next hc =>
    have hcs : cs = [] := List.eq_nil_of_length_eq_zero (Nat.succ.inj (Option.some.inj h)).symm
    rw [hcs]
    exact .terminator hc hended .nil
  · cases h

end IsGap

/-! ## Tokens from left to right -/

/-- The tokens of the part of a text that starts at an offset, after the previous one. -/
inductive Tiles : Option Token → Nat → List Char → List Token → Prop
  | last {previous : Option Token} {offset : Nat} {gap : List Char} (isGap : IsGap previous [] gap) :
    Tiles previous offset gap
      [⟨.endOfFile, "EOF", ⟨offset + byteLength gap, offset + byteLength gap⟩⟩]
  | token {previous : Option Token} {offset : Nat} {gap rest : List Char} {t : Token}
    {ts : List Token} (isGap : IsGap previous (t.text.toList ++ rest) gap)
    (nonempty : t.text.toList ≠ [])
    (span : t.span = ⟨offset + byteLength gap, offset + byteLength (gap ++ t.text.toList)⟩)
    (kind : t.kind ≠ .endOfFile) (first : t.kind = .terminator → ¬Ended previous)
    (others : Tiles (some t) t.span.stop rest ts) :
    Tiles previous offset (gap ++ (t.text.toList ++ rest)) (t :: ts)

namespace Tiles

variable {previous : Option Token} {offset : Nat} {gap part left : List Char} {tokens : List Token}

/-- What is before the first token may be longer. -/
theorem prepend (hgap : IsGap previous part gap)
    (h : Tiles previous (offset + byteLength gap) part tokens) :
    Tiles previous offset (gap ++ part) tokens := by
  cases h with
  | last isGap =>
    rw [Nat.add_assoc, ← byteLength_append]
    exact .last (IsGap.append (by rwa [List.append_nil]) isGap)
  | token isGap nonempty span kind first others =>
    rw [← List.append_assoc]
    refine .token (IsGap.append hgap isGap) nonempty ?_ kind first others
    rw [span, List.append_assoc, byteLength_append gap, byteLength_append gap, Nat.add_assoc,
      Nat.add_assoc]

theorem exists_endOfFile (h : Tiles previous offset part tokens) :
    ∃ ts, tokens = ts ++ [⟨.endOfFile, "EOF", ⟨offset + byteLength part, offset + byteLength part⟩⟩] ∧
      ∀ t ∈ ts, t.kind ≠ .endOfFile := by
  induction h with
  | last => exact ⟨[], rfl, List.forall_mem_nil _⟩
  | @token _ offset gap rest t _ _ _ span kind _ _ ih =>
    obtain ⟨ts, rfl, hts⟩ := ih
    have hstop : t.span.stop + byteLength rest =
        offset + byteLength (gap ++ (t.text.toList ++ rest)) := by
      rw [span]
      simp only [byteLength_append]
      omega
    rw [hstop]
    exact ⟨t :: ts, rfl, List.forall_mem_cons.mpr ⟨kind, hts⟩⟩

theorem byteLength_pos {cs : List Char} (h : cs ≠ []) : 0 < byteLength cs :=
  Nat.lt_of_lt_of_le (List.length_pos_iff.mpr h) (Text.length_le_byteLength cs)

theorem spanned (h : Tiles previous offset part tokens) (hleft : byteLength left = offset) :
    ∀ t ∈ tokens, t.kind ≠ .endOfFile → t.span.start < t.span.stop ∧
      ∃ before after, left ++ part = before ++ t.text.toList ++ after ∧
        byteLength before = t.span.start ∧ byteLength (before ++ t.text.toList) = t.span.stop := by
  induction h generalizing left with
  | last => exact List.forall_mem_singleton.mpr fun hkind => absurd rfl hkind
  | @token _ _ gap rest t _ _ nonempty span _ _ _ ih =>
    subst hleft
    have hpos := byteLength_pos nonempty
    have hstop : byteLength (left ++ gap ++ t.text.toList) = t.span.stop := by
      rw [span]
      simp only [byteLength_append]
      omega
    refine List.forall_mem_cons.mpr ⟨fun _ => ⟨?_, left ++ gap, rest, ?_, ?_, hstop⟩, ?_⟩
    · rw [span]
      simp only [byteLength_append]
      omega
    · simp only [List.append_assoc]
    · rw [span, byteLength_append]
    · have hrest := ih hstop
      simp only [List.append_assoc] at hrest ⊢
      exact hrest

theorem offset_le (h : Tiles previous offset part tokens) : ∀ t ∈ tokens, offset ≤ t.span.start := by
  induction h with
  | last => exact List.forall_mem_singleton.mpr (Nat.le_add_right _ _)
  | @token _ _ gap _ t _ _ _ span _ _ _ ih =>
    rw [span] at ih
    refine List.forall_mem_cons.mpr ⟨?_, fun u hu => Nat.le_trans (Nat.le_add_right _ _) (ih u hu)⟩
    rw [span]
    exact Nat.le_add_right _ _

theorem increasing (h : Tiles previous offset part tokens) :
    tokens.Pairwise fun t u => t.span.stop ≤ u.span.start := by
  induction h with
  | last => exact List.pairwise_singleton _ _
  | token _ _ _ _ _ others ih => exact List.pairwise_cons.mpr ⟨others.offset_le, ih⟩

theorem getLast?_cons_eq_or (t : Token) (ts : List Token) :
    (t :: ts).getLast? = ts.getLast?.or (some t) := by
  rw [List.getLast?_cons]
  cases ts.getLast? <;> rfl

theorem eq_of_singleton_eq {t u : Token} {before after : List Token}
    (h : [u] = before ++ t :: after) : before = [] ∧ u = t ∧ after = [] := by
  cases before with
  | nil => exact ⟨rfl, (List.cons.inj h).1, (List.cons.inj h).2.symm⟩
  | cons _ before =>
    have hlength := congrArg List.length h
    simp at hlength

theorem gaps (h : Tiles previous offset part tokens) (hleft : byteLength left = offset)
    {before after : List Token} {t : Token} (ht : tokens = before ++ t :: after) :
    ∃ l gap right, left ++ part = l ++ gap ++ right ∧
      byteLength l = (before.getLast?.map fun u => u.span.stop).getD offset ∧
      byteLength (l ++ gap) = t.span.start ∧ IsGap (before.getLast?.or previous) right gap := by
  induction h generalizing left before with
  | @last _ _ gap isGap =>
    obtain ⟨rfl, rfl, -⟩ := eq_of_singleton_eq ht
    exact ⟨left, gap, [], (List.append_nil _).symm, hleft, by rw [byteLength_append, hleft], isGap⟩
  | @token _ _ gap rest u _ isGap _ span _ _ _ ih =>
    cases before with
    | nil =>
      cases ht
      refine ⟨left, gap, _, (List.append_assoc ..).symm, hleft, ?_, isGap⟩
      rw [span, byteLength_append, hleft]
    | cons u' before =>
      rw [List.cons_append, List.cons.injEq] at ht
      obtain ⟨rfl, ht⟩ := ht
      have hstop : byteLength (left ++ gap ++ u.text.toList) = u.span.stop := by
        rw [span]
        simp only [byteLength_append, hleft]
        omega
      obtain ⟨l, gap', right, htext, hl, hgap, hisGap⟩ := ih hstop ht
      refine ⟨l, gap', right, ?_, ?_, hgap, ?_⟩
      · rw [← htext]
        simp only [List.append_assoc]
      · rw [hl, getLast?_cons_eq_or]
        cases before.getLast? <;> rfl
      · rwa [getLast?_cons_eq_or, Option.or_assoc, Option.some_or]

theorem terminators (h : Tiles previous offset part tokens) {before after : List Token} {t : Token}
    (ht : tokens = before ++ t :: after) (hkind : t.kind = .terminator) :
    ¬Ended (before.getLast?.or previous) := by
  induction h generalizing before with
  | last =>
    obtain ⟨-, rfl, -⟩ := eq_of_singleton_eq ht
    cases hkind
  | token _ _ _ _ first _ ih =>
    cases before with
    | nil =>
      cases ht
      exact first hkind
    | cons u before =>
      rw [List.cons_append, List.cons.injEq] at ht
      obtain ⟨rfl, ht⟩ := ht
      rw [getLast?_cons_eq_or, Option.or_assoc, Option.some_or]
      exact ih ht

theorem partitions (h : Tiles none 0 part tokens) : Partitions part tokens where
  endOfFile := by
    have hend := h.exists_endOfFile
    rwa [Nat.zero_add] at hend
  spanned := h.spanned byteLength_nil
  increasing := h.increasing
  gaps before t after ht := by
    have hgaps := h.gaps byteLength_nil ht
    rwa [Option.or_none] at hgaps
  terminators before t after ht hkind := by
    have hterminators := h.terminators ht hkind
    rwa [Option.or_none] at hterminators

end Tiles

/-! ## Scanning -/

theorem kind_eq_terminator {shape : Shape} : shape.kind = .terminator ↔ shape = .terminator := by
  constructor
  · intro h
    cases shape with
    | terminator => rfl
    | numeral n =>
      rw [Shape.kind] at h
      split at h <;> cases h
    | _ => cases h
  · rintro rfl
    rfl

theorem afterTerminator_iff (done : List Token) : afterTerminator done = true ↔ Ended done.head? := by
  cases done with
  | nil => exact iff_of_true rfl nofun
  | cons t done =>
    rw [afterTerminator, decide_eq_true_eq, Ended, ← kind_eq_terminator]
    simp [kind]

/-- A lexeme that stands for nothing is a gap. -/
theorem isGap_of_shape? {l : Lexeme} {done : List Token} {rest : List Char}
    (h : l.shape? done = .ok none)
    (hl : l.pattern.length? (l.text ++ rest) = some l.text.length) :
    IsGap done.head? rest l.text := by
  unfold Lexeme.shape? at h
  split at h
  · cases h
  · split at h <;> cases h
  · next hpattern => exact isGap_space (hpattern ▸ hl)
  · next hpattern => exact isGap_lineComment (hpattern ▸ hl)
  · next hpattern => exact isGap_blockComment (hpattern ▸ hl)
  · next hpattern =>
    split at h
    · next hafter => exact isGap_terminator ((afterTerminator_iff done).mp hafter) (hpattern ▸ hl)
    · cases h
  · cases h

/-- A lexeme that stands for something ends no file, and ends a statement only if that says
something. -/
theorem kind_of_shape? {l : Lexeme} {done : List Token} {shape : Shape}
    (h : l.shape? done = .ok (some shape)) :
    shape.kind ≠ .endOfFile ∧ (shape.kind = .terminator → ¬Ended done.head?) := by
  rw [← afterTerminator_iff]
  unfold Lexeme.shape? at h
  split at h
  · cases h
    unfold shapeOfName
    split <;> exact ⟨nofun, nofun⟩
  · split at h <;> cases h
    constructor <;> rw [Shape.kind] <;> split <;> nofun
  · cases h
  · cases h
  · cases h
  · split at h
    · cases h
    · next hafter =>
      cases h
      exact ⟨nofun, fun _ => hafter⟩
  · cases h
    exact ⟨nofun, nofun⟩

variable {file : String} {text rest : List Char} {ls : List Lexeme} {done done' : List Token}
  {offset stop : Nat}

/-- The lexemes of a text lead to tokens that tile it. -/
theorem tiles_assemble (hcuts : Cuts text ls [])
    (h : assemble file done offset ls = .ok (done', stop)) :
    ∃ ts, done' = ts.reverse ++ done ∧
      Tiles done.head? offset text (ts ++ [⟨.endOfFile, "EOF", ⟨stop, stop⟩⟩]) := by
  induction ls generalizing text done offset with
  | nil =>
    cases h
    cases hcuts
    exact ⟨[], rfl, .last .nil⟩
  | cons l ls ih =>
    cases hcuts with
    | @lexeme _ text _ _ first others =>
      have hlength := Pattern.length?_of_first? first
      rw [assemble] at h
      cases hshape : l.shape? done with
      | error cause =>
        rw [hshape] at h
        cases h
      | ok shape =>
        rw [hshape] at h
        cases shape with
        | none =>
          obtain ⟨ts, rfl, htiles⟩ := ih others h
          exact ⟨ts, rfl, htiles.prepend (isGap_of_shape? hshape hlength)⟩
        | some shape =>
          obtain ⟨ts, rfl, htiles⟩ := ih others h
          obtain ⟨hkind, hfirst⟩ := kind_of_shape? hshape
          let t : Token :=
            ⟨shape, String.ofList l.text, ⟨offset, offset + byteLength l.text⟩⟩
          have htext : t.text.toList = l.text := String.toList_ofList
          refine ⟨t :: ts, by rw [List.reverse_cons, List.append_assoc, List.singleton_append], ?_⟩
          have htoken : Tiles done.head? offset ([] ++ (t.text.toList ++ text))
              (t :: (ts ++ [⟨.endOfFile, "EOF", ⟨stop, stop⟩⟩])) := by
            refine .token .nil ?_ ?_ hkind hfirst htiles
            · rw [htext]
              exact List.length_pos_iff.mp (Pattern.length?_pos hlength)
            · rw [List.nil_append, htext]
              rfl
          rwa [List.nil_append, htext] at htoken

/-- The tokens of a text that has been cut are those of its lexemes. -/
theorem scan_of_cuts (hcuts : Cuts text ls [])
    (h : assemble file [] 0 ls = .ok (done, stop)) :
    Buffer.scan file (String.ofList text) =
      .ok ⟨file, (⟨.endOfFile, "EOF", ⟨stop, stop⟩⟩ :: done).reverse⟩ := by
  rw [Buffer.scan, String.toList_ofList, hcuts.lexemes_eq]
  simp only [h]

theorem partitions_of_cuts (hcuts : Cuts text ls [])
    (h : assemble file [] 0 ls = .ok (done, stop)) :
    Partitions text (⟨.endOfFile, "EOF", ⟨stop, stop⟩⟩ :: done).reverse := by
  obtain ⟨ts, rfl, htiles⟩ := tiles_assemble hcuts h
  rw [List.append_nil, List.reverse_cons, List.reverse_reverse]
  exact htiles.partitions

/-- The end of file is where the text ends. -/
theorem stop_of_cuts (hcuts : Cuts text ls [])
    (h : assemble file [] 0 ls = .ok (done, stop)) : stop = byteLength text := by
  obtain ⟨ts, hts, -⟩ := (partitions_of_cuts hcuts h).endOfFile
  rw [List.reverse_cons] at hts
  have hlast := List.append_inj_right' hts rfl
  simp only [List.cons.injEq, Token.mk.injEq] at hlast
  exact congrArg (·.start) hlast.1.2.2

/-- Only a number makes lexemes fail to be tokens. -/
theorem cause_of_assemble {d : Diagnostic} (h : assemble file done offset ls = .error d) :
    ∃ number, d.cause = .numberOutOfRange number := by
  induction ls generalizing done offset with
  | nil => cases h
  | cons l ls ih =>
    rw [assemble] at h
    split at h
    · next cause hshape =>
      cases h
      unfold Lexeme.shape? at hshape
      split at hshape <;> try cases hshape
      split at hshape <;> cases hshape
      exact ⟨_, rfl⟩
    · exact ih h
    · exact ih h

/-- **Tokens partition the source.** The tokens of a text, if it can be cut into tokens, make up the
text together with the gaps between them. If a character is not recognised, no pattern takes anything
of the text that starts with it, and what comes before it can be cut into tokens. -/
theorem scan_partitions (file source : String) :
    (∀ buffer, Buffer.scan file source = .ok buffer → Partitions source.toList buffer.tokens) ∧
    ∀ shown position, Buffer.scan file source = .error ⟨.unrecognisedToken shown, position⟩ →
      ∃ before c rest, source.toList = before ++ c :: rest ∧ shown = String.singleton c ∧
        position = ⟨byteLength before, file⟩ ∧
        (∀ p ∈ Pattern.table, p.length? (c :: rest) = none) ∧
        ∃ buffer, Buffer.scan file (String.ofList before) = .ok buffer ∧
          Partitions before buffer.tokens := by
  have hcuts := cuts_lexemes source.toList
  unfold Buffer.scan
  dsimp only
  generalize (lexemes source.toList).1 = ls at hcuts ⊢
  generalize (lexemes source.toList).2 = rest at hcuts ⊢
  obtain ⟨before, htext, hbefore⟩ := hcuts.exists_before
  cases hassemble : assemble file [] 0 ls with
  | error d =>
    obtain ⟨number, hnumber⟩ := cause_of_assemble hassemble
    refine ⟨nofun, ?_⟩
    rintro shown position ⟨⟩
    cases hnumber
  | ok result =>
    obtain ⟨done, stop⟩ := result
    have hpartitions := partitions_of_cuts hbefore hassemble
    cases rest with
    | nil =>
      rw [List.append_nil] at htext
      refine ⟨?_, nofun⟩
      rintro buffer ⟨⟩
      rwa [htext]
    | cons c rest =>
      refine ⟨nofun, ?_⟩
      rintro shown position ⟨⟩
      have hnothing := hcuts.first?_rest (List.cons_ne_nil c rest)
      refine ⟨before, c, rest, htext, rfl, ?_, Pattern.first?_eq_none.mp hnothing, _,
        scan_of_cuts hbefore hassemble, hpartitions⟩
      rw [stop_of_cuts hbefore hassemble]

theorem scan_partitions_comment :
    (∃ buffer, Buffer.scan unnamed "; x /* ;\n é */ ;\n; // é" = .ok buffer ∧
      buffer.tokens.map (·.text) = ["x", ";", "EOF"] ∧
      Partitions "; x /* ;\n é */ ;\n; // é".toList buffer.tokens) ∧
    Buffer.scan unnamed "x /* é */ #" = .error ⟨.unrecognisedToken "#", ⟨11, unnamed⟩⟩ ∧
    ∃ before c rest, "x /* é */ #".toList = before ++ c :: rest ∧ "#" = String.singleton c ∧
      (⟨11, unnamed⟩ : Position) = ⟨byteLength before, unnamed⟩ ∧
      (∀ p ∈ Pattern.table, p.length? (c :: rest) = none) ∧
      ∃ buffer, Buffer.scan unnamed (String.ofList before) = .ok buffer ∧
        Partitions before buffer.tokens := by
  have hscan : ∃ buffer, Buffer.scan unnamed "; x /* ;\n é */ ;\n; // é" = .ok buffer ∧
      buffer.tokens.map (·.text) = ["x", ";", "EOF"] := ⟨_, rfl, by decide +kernel⟩
  have hfails : Buffer.scan unnamed "x /* é */ #" =
      .error ⟨.unrecognisedToken "#", ⟨11, unnamed⟩⟩ := by decide +kernel
  obtain ⟨buffer, hok, htexts⟩ := hscan
  exact ⟨⟨buffer, hok, htexts, (scan_partitions unnamed _).1 buffer hok⟩, hfails,
    (scan_partitions unnamed _).2 _ _ hfails⟩

end FrontEnd.Token
