import FrontEnd.Proofs.Grammar.Reading

/-!
# What has been read is derived

The stack of what is pending parts the tokens that have been read: below each entry
stand the tokens that were read before it, and above it an operand is still to come, or
has come. Reading a token keeps this, so at the end the tokens are those of a tree.
-/

namespace FrontEnd.Grammar

open Token (Shape Mark)

/-- Tokens after which an operand is wanted, what they have completed, and what is pending. -/
inductive Wants (start : Nat) : List Shape → List Node → List Pending → Prop
  | start : Wants start [] [] []
  | group {ws : List Shape} {output : List Node} {pending : List Pending}
    (h : Wants start ws output pending) :
    Wants start (ws ++ [.mark .openParen]) output (.group (start + ws.length) :: pending)
  | unary {ws : List Shape} {output : List Node} {pending : List Pending} {s : Shape} {o : Operator}
    (h : Wants start ws output pending) (ho : prefixOf? s = some o) :
    Wants start (ws ++ [s]) output (.op o (start + ws.length) :: pending)
  | binary {ws ls : List Shape} {output : List Node} {pending : List Pending} {s : Shape}
    {o : Operator} {l : SyntaxTree} (h : Wants start ws output pending)
    (ho : binaryOf? s = some o) (hb : IsBelow o.precedence pending)
    (hl : Derives o.precedence (start + ws.length) ls l) :
    Wants start (ws ++ (ls ++ [s])) (l.nodes.reverse ++ output)
      (.op o (start + ws.length + ls.length) :: pending)
  | call {ws : List Shape} {output : List Node} {pending : List Pending} (path : List String)
    (h : Wants start ws output pending) :
    Wants start (ws ++ [.identifier path, .mark .openParen]) output
      (.call (start + ws.length) path (start + ws.length + 1) 0 :: pending)
  | comma {ws as : List Shape} {output : List Node} {pending : List Pending} {ts : List SyntaxTree}
    (path : List String) (h : Wants start ws output pending)
    (hs : DerivesAll (start + ws.length + 2) as ts) :
    Wants start (ws ++ (.identifier path :: .mark .openParen :: (as ++ [.mark .comma])))
      ((nodesOfAll ts).reverse ++ output)
      (.call (start + ws.length) path (start + ws.length + 1) ts.length :: pending)

/-- Tokens that end with an operand of a level, which nothing that is pending takes before an
operator of the level does. -/
inductive Stands (start level : Nat) : List Shape → List Node → List Pending → Prop
  | intro {ws ts : List Shape} {output : List Node} {pending : List Pending} {t : SyntaxTree}
    (h : Wants start ws output pending) (hd : Derives level (start + ws.length) ts t)
    (hb : IsBelow level pending) :
    Stands start level (ws ++ ts) (t.nodes.reverse ++ output) pending

/-- Tokens and the progress after them. -/
inductive Reached (start : Nat) : List Shape → Progress → Prop
  | wants {ws : List Shape} {output : List Node} {pending : List Pending}
    (h : Wants start ws output pending) : Reached start ws ⟨output, pending, true, false⟩
  | opened {ws : List Shape} {output : List Node} {pending : List Pending} (path : List String)
    (h : Wants start ws output pending) :
    Reached start (ws ++ [.identifier path, .mark .openParen])
      ⟨output, .call (start + ws.length) path (start + ws.length + 1) 0 :: pending, true, true⟩
  | stands {ws : List Shape} {output : List Node} {pending : List Pending}
    (h : Stands start 10 ws output pending) : Reached start ws ⟨output, pending, false, false⟩

namespace Stands

variable {start level : Nat} {ws : List Shape} {output : List Node} {pending : List Pending}

/-- The innermost operator takes its operands, and is an operand of its own level. -/
theorem complete {o : Operator} {token : Nat}
    (h : Stands start level ws output (.op o token :: pending)) :
    Stands start o.precedence ws (.op token o :: output) pending := by
  obtain @⟨_, ts, _, _, t, hw, hd, hb⟩ := h
  have hle := hd.level_le
  have hlevel : o.precedence < level ∨ level = 10 := hb
  cases hw with
  | @unary ws _ _ s _ hw ho =>
    have hprec : o.precedence = 10 := precedence_of_isPrefixOp (isPrefixOp_of_prefixOf? ho)
    have hten : level = 10 := by omega
    subst hten
    have hd' : Derives 10 (start + ws.length + 1) ts t := by
      simpa [Nat.add_assoc] using hd
    have hs := Stands.intro hw (.unary ho hd') (isBelow_ten _)
    rw [hprec]
    simpa [SyntaxTree.nodes] using hs
  | @binary ws ls _ _ s _ l hw ho hbelow hl =>
    have hlt := precedence_lt_of_binaryOf? ho
    have hd' : Derives (o.precedence + 1) (start + ws.length + ls.length + 1) ts t := by
      have hr := hd.of_le (show o.precedence + 1 ≤ level by omega) hle
      simpa [Nat.add_assoc] using hr
    have hs := Stands.intro hw (.binary ho hl hd') hbelow
    simpa [SyntaxTree.nodes] using hs

/-- The operators that have all their operands before a binary one are completed. -/
theorem flushFor {s : Shape} {o : Operator} (ho : binaryOf? s = some o)
    (h : Stands start level ws output pending) (hl : o.precedence ≤ level) :
    ∃ level', o.precedence ≤ level' ∧
      Stands start level' ws (Progress.flushFor o output pending).1
        (Progress.flushFor o output pending).2 ∧
      IsBelow o.precedence (Progress.flushFor o output pending).2 := by
  induction pending generalizing level output with
  | nil => exact ⟨level, hl, h, trivial⟩
  | cons top rest ih =>
    cases top with
    | op o' token =>
      rw [Progress.flushFor]
      split
      · next hflush =>
        rw [flushes_of_binaryOf? ho, decide_eq_true_eq] at hflush
        exact ih h.complete hflush
      · next hflush =>
        rw [flushes_of_binaryOf? ho, decide_eq_true_eq, Nat.not_le] at hflush
        exact ⟨level, hl, h, .inl hflush⟩
    | group | call => exact ⟨level, hl, h, trivial⟩

/-- The operators above the innermost parenthesis are completed. -/
theorem flushGroup (h : Stands start level ws output pending) :
    ∃ level', Stands start level' ws (Progress.flushGroup output pending).1
      (Progress.flushGroup output pending).2 := by
  induction pending generalizing level output with
  | nil => exact ⟨level, h⟩
  | cons top rest ih =>
    cases top with
    | op o token =>
      rw [Progress.flushGroup]
      exact ih h.complete
    | group | call => exact ⟨level, h⟩

/-- Within a parenthesis stands an expression. -/
theorem in_group {paren : Nat} (h : Stands start level ws output (.group paren :: pending)) :
    ∃ ws' ts output' t, ws = ws' ++ (.mark .openParen :: ts) ∧ Wants start ws' output' pending ∧
      Derives 0 (start + ws'.length + 1) ts t ∧ output = t.nodes.reverse ++ output' := by
  obtain @⟨_, ts, output', _, t, hw, hd, -⟩ := h
  cases hw with
  | @group ws' _ _ hw =>
    have hd' : Derives 0 (start + ws'.length + 1) ts t := by
      simpa [Nat.add_assoc] using hd.of_le (Nat.zero_le level) hd.level_le
    exact ⟨ws', ts, output', t, by simp, hw, hd', rfl⟩

/-- Within the parenthesis of a call stand its arguments, one more than commas. -/
theorem in_call {token paren commas : Nat} {path : List String}
    (h : Stands start level ws output (.call token path paren commas :: pending)) :
    ∃ ws' as output' ts, ws = ws' ++ (.identifier path :: .mark .openParen :: as) ∧
      token = start + ws'.length ∧ paren = start + ws'.length + 1 ∧
      Wants start ws' output' pending ∧ DerivesAll (start + ws'.length + 2) as ts ∧
      ts.length = commas + 1 ∧ output = (nodesOfAll ts).reverse ++ output' := by
  obtain @⟨_, as, output', _, t, hw, hd, -⟩ := h
  have hd' := hd.of_le (Nat.zero_le level) hd.level_le
  cases hw with
  | @call ws' _ _ _ hw =>
    have ht : Derives 0 (start + ws'.length + 2) as t := by
      simpa [Nat.add_assoc] using hd'
    exact ⟨ws', as, output', [t], by simp, rfl, rfl, hw, .one ht, rfl, by simp [nodesOfAll]⟩
  | @comma ws' as' output' _ ts _ hw hs =>
    have ht : Derives 0 (start + ws'.length + 2 + as'.length + 1) as t := by
      have hlen : start + (ws'.length + (as'.length + 1 + 1 + 1)) =
          start + ws'.length + 2 + as'.length + 1 := by omega
      simpa [hlen] using hd'
    refine ⟨ws', as' ++ .mark .comma :: as, output', ts ++ [t], by simp, rfl, rfl, hw, .more hs ht,
      by simp, ?_⟩
    rw [nodesOfAll_append]
    simp [nodesOfAll]

/-- At the end nothing but operators is pending, and the tokens are an expression. -/
theorem finish {e : Expr} (h : Stands start level ws output pending)
    (he : Progress.finish output pending = .ok e) :
    ∃ t, Derives 0 start ws t ∧ e = t.nodes := by
  induction pending generalizing level output with
  | nil =>
    obtain @⟨_, ts, _, _, t, hw, hd, -⟩ := h
    cases hw
    cases he
    exact ⟨t, hd.of_le (Nat.zero_le level) hd.level_le, by simp⟩
  | cons top rest ih =>
    cases top with
    | op o token => exact ih h.complete he
    | group | call => cases he

end Stands

namespace Reached

variable {start : Nat} {ws : List Shape}

/-- Where an operand is wanted, tokens have been read that it can follow. -/
theorem wants_of_wantsOperand {p : Progress} (h : Reached start ws p)
    (hp : p.wantsOperand = true) : Wants start ws p.output p.pending := by
  cases h with
  | wants h => exact h
  | opened path h => exact .call path h
  | stands => cases hp

theorem stands_of_not_wantsOperand {p : Progress} (h : Reached start ws p)
    (hp : p.wantsOperand = false) : Stands start 10 ws p.output p.pending := by
  cases h with
  | wants => cases hp
  | opened => cases hp
  | stands h => exact h

theorem operand {p q : Progress} {s : Shape} {n : Node} (h : Reached start ws p)
    (hn : atomOf? (start + ws.length) s = some n) (hq : p.operand n = .ok q) :
    Reached start (ws ++ [s]) q := by
  unfold Progress.operand at hq
  split at hq
  · next hp =>
    cases hq
    exact .stands (.intro (h.wants_of_wantsOperand hp) (.atom hn) (isBelow_ten _))
  · cases hq

theorem group {p q : Progress} (h : Reached start ws p)
    (hq : p.opening (.group (start + ws.length)) false = .ok q) :
    Reached start (ws ++ [.mark .openParen]) q := by
  unfold Progress.opening at hq
  split at hq
  · next hp =>
    cases hq
    exact .wants (.group (h.wants_of_wantsOperand hp))
  · cases hq

theorem call {p q : Progress} {path : List String} (h : Reached start ws p)
    (hq : p.opening (.call (start + ws.length) path (start + ws.length + 1) 0) true = .ok q) :
    Reached start (ws ++ [.identifier path, .mark .openParen]) q := by
  unfold Progress.opening at hq
  split at hq
  · next hp =>
    cases hq
    exact .opened path (h.wants_of_wantsOperand hp)
  · cases hq

theorem operator {p q : Progress} {m : Mark} {o : Operator} (h : Reached start ws p)
    (ho : Operator.ofMark? m = some o) (hq : p.operator (start + ws.length) o = .ok q) :
    Reached start (ws ++ [.mark m]) q := by
  cases hp : p.wantsOperand with
  | true =>
    have hw := h.wants_of_wantsOperand hp
    cases hf : o.prefixForm? with
    | none =>
      simp [Progress.operator, hp, hf] at hq
    | some o' =>
      have ho' : prefixOf? (.mark m) = some o' := by simp [prefixOf?, ho, hf]
      have hflush : Progress.flushFor o' p.output p.pending = (p.output, p.pending) :=
        flushFor_eq_self (fun o'' _ _ _ => flushes_of_prefixOf? ho' o'') _
      simp only [Progress.operator, hp, hf, hflush, if_true] at hq
      cases hq
      exact .wants (.unary hw ho')
  | false =>
    have hs := h.stands_of_not_wantsOperand hp
    by_cases hnot : o = .not
    · simp [Progress.operator, hp, hnot] at hq
    · have ho' : binaryOf? (.mark m) = some o := by simp [binaryOf?, ho, hnot]
      obtain ⟨level, hl, hs', hb⟩ := hs.flushFor ho' (precedence_le o)
      simp only [Progress.operator, hp, hnot, if_false, Bool.false_eq_true] at hq
      cases hq
      generalize Progress.flushFor o p.output p.pending = r at hs' hb
      obtain ⟨output, pending⟩ := r
      obtain @⟨ws, ts, _, _, t, hw, hd, -⟩ := hs'
      have hbin := Wants.binary hw ho' hb (hd.of_le hl hd.level_le)
      have hw' := Reached.wants hbin
      simpa [Nat.add_assoc] using hw'

theorem comma {p q : Progress} (h : Reached start ws p) (hq : p.comma = .ok q) :
    Reached start (ws ++ [.mark .comma]) q := by
  unfold Progress.comma at hq
  cases hp : p.wantsOperand with
  | true => simp [hp] at hq
  | false =>
    obtain ⟨level, hs⟩ := (h.stands_of_not_wantsOperand hp).flushGroup
    simp only [hp, Bool.false_eq_true, if_false] at hq
    generalize Progress.flushGroup p.output p.pending = r at hs hq
    obtain ⟨output, _ | ⟨_ | _ | ⟨token, path, paren, commas⟩, pending⟩⟩ := r
    · cases hq
    · cases hq
    · cases hq
    · cases hq
      obtain ⟨ws', as, output', ts, rfl, rfl, rfl, hw, hd, hlen, rfl⟩ := hs.in_call
      rw [← hlen]
      simpa using Reached.wants (.comma path hw hd)

theorem close {p q : Progress} (h : Reached start ws p) (hq : p.close = .ok q) :
    Reached start (ws ++ [.mark .closeParen]) q := by
  unfold Progress.close at hq
  cases h with
  | wants => cases hq
  | @opened ws _ _ path hw =>
    cases hq
    simpa [SyntaxTree.nodes, nodesOfAll] using
      Reached.stands (.intro hw (.callEmpty path) (isBelow_ten _))
  | stands hs =>
    obtain ⟨level, hs'⟩ := hs.flushGroup
    rename_i output pending
    simp only [Bool.false_and, Bool.false_eq_true, if_false] at hq
    generalize Progress.flushGroup output pending = r at hs' hq
    obtain ⟨output', _ | ⟨_ | paren | ⟨token, path, paren, commas⟩, pending'⟩⟩ := r
    · cases hq
    · cases hq
    · cases hq
      obtain ⟨ws', as, _, t, rfl, hw, hd, rfl⟩ := hs'.in_group
      simpa using Reached.stands (.intro hw (.group hd) (isBelow_ten _))
    · cases hq
      obtain ⟨ws', as, _, ts, rfl, rfl, rfl, hw, hd, hlen, rfl⟩ := hs'.in_call
      rw [← hlen]
      simpa [SyntaxTree.nodes] using Reached.stands (.intro hw (.call path hd) (isBelow_ten _))

/-- Reading a token on its own keeps what has been read derivable. -/
theorem feed {p q : Progress} {s : Shape} (h : Reached start ws p)
    (hq : p.feed (start + ws.length) s = .ok q) : Reached start (ws ++ [s]) q := by
  cases s with
  | numeral n => exact h.operand rfl hq
  | identifier path => exact h.operand rfl hq
  | keyword k =>
    cases k with
    | trueKw | falseKw => exact h.operand rfl hq
    | _ => cases hq
  | mark m =>
    cases ho : Operator.ofMark? m with
    | some o => exact h.operator ho (by rwa [feed_operator ho] at hq)
    | none =>
      cases m with
      | openParen => exact h.group hq
      | closeParen => exact h.close hq
      | comma => exact h.comma hq
      | _ => first | cases hq | cases ho
  | _ => cases hq

/-- What is read from the start on is derivable as far as it has been read. -/
theorem read {p q : Progress} {seen rest : List Shape} (h : Reached start seen p)
    (hq : Grammar.read p (start + seen.length) rest = .ok q) : Reached start (seen ++ rest) q := by
  generalize hi : start + seen.length = index at hq
  fun_induction Grammar.read p index rest generalizing seen with
  | case1 p index =>
    cases hq
    rwa [List.append_nil]
  | case2 p index path rest ih =>
    subst hi
    cases hr : p.opening (.call (start + seen.length) path (start + seen.length + 1) 0) true with
    | error e =>
      rw [hr] at hq
      cases hq
    | ok r =>
      rw [hr] at hq
      simpa using ih r (h.call hr) (by simp [Nat.add_assoc]) hq
  | case3 p index s rest hs ih =>
    subst hi
    cases hr : p.feed (start + seen.length) s with
    | error e =>
      rw [hr] at hq
      cases hq
    | ok r =>
      rw [hr] at hq
      simpa using ih r (h.feed hr) (by simp [Nat.add_assoc]) hq

end Reached

/-- What is read and finished without an operand missing is an expression. -/
theorem exists_derives_of_finish {start : Nat} {ws : List Shape} {p : Progress} {e : Expr}
    (h : read .start start ws = .ok p) (hp : p.wantsOperand = false)
    (he : Progress.finish p.output p.pending = .ok e) :
    ∃ t, Derives 0 start ws t ∧ e = t.nodes :=
  ((Reached.wants .start).read h |>.stands_of_not_wantsOperand hp).finish he

end FrontEnd.Grammar
