import FrontEnd.Grammar.Statement
import FrontEnd.Proofs.Grammar.Soundness

/-!
# Expressions are read as the grammar says

Tokens without `if`, up to one that ends an expression, are read as an expression if
and only if they are derivable, and then as their only tree in postfix order. The
terminator after an operator, a comma or an opening parenthesis ends nothing: the
expression goes on in the next line.
-/

namespace FrontEnd.Grammar

open Token (Shape Mark)

/-- A token that is part of an expression, if of any, and not of a conditional in it. -/
def IsPart (t : Token) : Prop :=
  t.shape ≠ .keyword .ifKw ∧ endsExpression none t.kind = false

instance : DecidablePred IsPart := fun t =>
  inferInstanceAs (Decidable (t.shape ≠ .keyword .ifKw ∧ endsExpression none t.kind = false))

/-- Whether an operand is wanted after a token. -/
def awaitsOperand : Shape → Bool
  | .mark m => m = .openParen || m = .comma || (Operator.ofMark? m).isSome
  | _ => false

/-- The place that an expression leaves, of which the end is at this one. -/
def Cursor.pastEnd (c : Cursor) : Cursor := if c.kind = .terminator then c.next else c

variable {fuel : Nat} {p q : Progress}

theorem Cursor.next_spec {c : Cursor} (h : c.rest ≠ []) :
    c.next.index = c.index + 1 ∧ c.next.current :: c.next.rest = c.rest := by
  obtain ⟨index, t, _ | ⟨u, rest⟩⟩ := c
  · exact absurd rfl h
  · exact ⟨rfl, rfl⟩

theorem Cursor.nextKind_eq {c : Cursor} (h : c.rest ≠ []) : c.nextKind = c.next.current.kind := by
  obtain ⟨index, t, _ | ⟨u, rest⟩⟩ := c
  · exact absurd rfl h
  · rfl

theorem endExpression_of_isOpen (hp : p.isOpen = true) (c : Cursor) :
    ∃ f, endExpression none p c = .error f c := by
  refine ⟨c.unexpectedDetailed "expected an operand", ?_⟩
  unfold endExpression
  simp only [hp]
  rfl

theorem endExpression_of_not_isOpen (hp : p.isOpen = false) (c : Cursor) :
    endExpression none p c = match Progress.finish p.output p.pending with
      | .error paren => .error ⟨paren, .unclosedParenthesis⟩ c
      | .ok e => .ok e c.pastEnd := by
  unfold endExpression
  simp only [hp]
  cases Progress.finish p.output p.pending with
  | error paren => rfl
  | ok e =>
    by_cases hc : c.kind = .terminator
    · have hend : c.kind = .terminator ∨ none = some c.kind := .inl hc
      rw [Cursor.pastEnd, if_pos hc]
      change (if c.kind = .terminator ∨ none = some c.kind then _ else _ : Parse Expr) c = _
      rw [if_pos hend]
      rfl
    · have hend : ¬(c.kind = .terminator ∨ none = some c.kind) := by simp [hc]
      rw [Cursor.pastEnd, if_neg hc]
      change (if c.kind = .terminator ∨ none = some c.kind then _ else _ : Parse Expr) c = _
      rw [if_neg hend]
      rfl

theorem endExpression_eq_ok {c c' : Cursor} {e : Expr} (h : endExpression none p c = .ok e c') :
    p.isOpen = false ∧ Progress.finish p.output p.pending = .ok e := by
  cases hopen : p.isOpen with
  | true =>
    obtain ⟨f, herror⟩ := endExpression_of_isOpen hopen c
    rw [herror] at h
    cases h
  | false =>
    rw [endExpression_of_not_isOpen hopen] at h
    cases hfinish : Progress.finish p.output p.pending with
    | error paren =>
      rw [hfinish] at h
      cases h
    | ok e' =>
      rw [hfinish] at h
      cases h
      exact ⟨rfl, rfl⟩

theorem IsPart.not_terminator {t : Token} (h : IsPart t) : t.kind ≠ .terminator := by
  intro ht
  have hend := h.2
  rw [ht] at hend
  cases hend

theorem expressionFrom_end {c : Cursor} (hc : endsExpression none c.kind = true)
    (hp : c.kind = .terminator → p.isOpen = false) :
    expressionFrom (fuel + 1) none p c = endExpression none p c := by
  have hopen : ¬(c.kind = .terminator ∧ p.isOpen = true) := by
    rintro ⟨hk, ho⟩
    rw [hp hk] at ho
    cases ho
  rw [expressionFrom]
  change (if c.kind = .terminator ∧ p.isOpen = true then _ else _ : Parse Expr) c = _
  rw [if_neg hopen, if_pos hc]

/-- The rest of the loop, from `c'` on, if the progress from `c` to there is no mistake. -/
def continueFrom (fuel : Nat) (c c' : Cursor) :
    Except Complaint Progress → EStateM.Result Fault Cursor Expr
  | .error e => .error (e.fault c) c
  | .ok q => expressionFrom fuel none q c'

theorem orComplain_advance (r : Except Complaint Progress) (c : Cursor) :
    (do
      let q ← orComplain r
      discard advance
      expressionFrom fuel none q : Parse Expr) c = continueFrom fuel c c.next r := by
  cases r <;> rfl

/-- A turn of the loop on a token that is part of the expression. -/
theorem expressionFrom_part {c : Cursor} (hc : IsPart c.current) :
    expressionFrom (fuel + 1) none p c = match c.current.shape with
      | .identifier path =>
        if c.nextKind = .mark .openParen then
          continueFrom fuel c c.next.next (p.opening (.call c.index path (c.index + 1) 0) true)
        else continueFrom fuel c c.next (p.feed c.index (.identifier path))
      | shape => continueFrom fuel c c.next (p.feed c.index shape) := by
  obtain ⟨hif, hend⟩ := hc
  have hopen : ¬(c.kind = .terminator ∧ p.isOpen = true) := fun h =>
    IsPart.not_terminator ⟨hif, hend⟩ h.1
  have hend' : ¬endsExpression none c.kind = true := by
    rw [Cursor.kind, hend]
    exact Bool.false_ne_true
  rw [expressionFrom]
  change (if c.kind = .terminator ∧ p.isOpen = true then _ else _ : Parse Expr) c = _
  rw [if_neg hopen, if_neg hend']
  clear hopen hend hend'
  obtain ⟨index, ⟨shape, text, span⟩, rest⟩ := c
  cases shape with
  | identifier path =>
    simp only
    split
    · cases p.opening (.call index path (index + 1) 0) true <;> rfl
    · exact orComplain_advance _ _
  | keyword k =>
    cases k with
    | ifKw => exact absurd rfl hif
    | _ => exact orComplain_advance _ _
  | _ => exact orComplain_advance _ _

theorem expressionFrom_feed {c : Cursor} (hc : IsPart c.current)
    (hcall : ∀ path, c.current.shape = .identifier path → c.nextKind ≠ .mark .openParen) :
    expressionFrom (fuel + 1) none p c =
      continueFrom fuel c c.next (p.feed c.index c.current.shape) := by
  rw [expressionFrom_part hc]
  cases hs : c.current.shape with
  | identifier path => exact if_neg (hcall path hs)
  | _ => rfl

theorem expressionFrom_call {c : Cursor} {path : List String} (hc : IsPart c.current)
    (hs : c.current.shape = .identifier path) (hnext : c.nextKind = .mark .openParen) :
    expressionFrom (fuel + 1) none p c =
      continueFrom fuel c c.next.next (p.opening (.call c.index path (c.index + 1) 0) true) := by
  rw [expressionFrom_part hc, hs]
  exact if_pos hnext

theorem shape_of_kind {t : Token} {m : Mark} (h : t.kind = .mark m) : t.shape = .mark m := by
  obtain ⟨shape, text, span⟩ := t
  cases shape with
  | mark m' => cases h; rfl
  | numeral n =>
    obtain ⟨number, suffix⟩ := n
    cases number <;> cases h
  | _ => cases h

/-- The tokens begin with a name and a parenthesis. -/
def BeginsCall : List Token → Prop
  | t :: u :: _ => (∃ path, t.shape = .identifier path) ∧ u.shape = .mark .openParen
  | _ => False

theorem nextKind_ne_of_not_beginsCall {c : Cursor} {rest after : List Token} {stop : Token}
    (h : c.rest = rest ++ stop :: after) (hstop : endsExpression none stop.kind = true)
    (hcall : ¬BeginsCall (c.current :: rest)) (path : List String)
    (hs : c.current.shape = .identifier path) : c.nextKind ≠ .mark .openParen := by
  have hrest : c.rest ≠ [] := by simp [h]
  obtain ⟨-, hnext⟩ := c.next_spec hrest
  rw [h] at hnext
  rw [c.nextKind_eq hrest]
  intro hk
  cases rest with
  | nil =>
    rw [(List.cons.inj hnext).1] at hk
    rw [hk] at hstop
    cases hstop
  | cons u rest =>
    rw [(List.cons.inj hnext).1] at hk
    exact hcall ⟨⟨path, hs⟩, shape_of_kind hk⟩

theorem head?_ne_of_not_beginsCall {t : Token} {rest : List Token} (hcall : ¬BeginsCall (t :: rest))
    (path : List String) (hs : t.shape = .identifier path) :
    (rest.map Token.shape).head? ≠ some (.mark .openParen) := by
  intro hhead
  rw [List.head?_map, Option.map_eq_some_iff] at hhead
  obtain ⟨u, hu, hm⟩ := hhead
  obtain ⟨rest', rfl⟩ := List.head?_eq_some_iff.mp hu
  exact hcall ⟨⟨path, hs⟩, hm⟩

/-- The loop reads the tokens up to the end of the expression. -/
theorem expressionFrom_read {c : Cursor} {w after : List Token} {stop : Token}
    (h : c.current :: c.rest = w ++ stop :: after) (hw : ∀ t ∈ w, IsPart t)
    (hstop : endsExpression none stop.kind = true) (hfuel : w.length < fuel) :
    (∃ e f c', read p c.index (w.map Token.shape) = .error e ∧
      expressionFrom fuel none p c = .error f c') ∨
    (∃ q fuel', read p c.index (w.map Token.shape) = .ok q ∧
      expressionFrom fuel none p c =
        expressionFrom (fuel' + 1) none q ⟨c.index + w.length, stop, after⟩) := by
  induction fuel generalizing p c w with
  | zero => cases hfuel
  | succ fuel ih =>
    rcases w with _ | ⟨t, rest⟩
    · obtain ⟨index, t, tail⟩ := c
      cases h
      exact .inr ⟨p, fuel, rfl, rfl⟩
    · obtain ⟨rfl, hc⟩ := List.cons.inj h
      rw [List.forall_mem_cons] at hw
      rw [List.length_cons] at hfuel
      have hrest : c.rest ≠ [] := by simp [hc]
      obtain ⟨hindex, hnext⟩ := c.next_spec hrest
      by_cases hcall : BeginsCall (c.current :: rest)
      · rcases rest with _ | ⟨u, rest⟩
        · exact hcall.elim
        obtain ⟨⟨path, hs⟩, hu⟩ := hcall
        obtain ⟨rfl, htail⟩ := List.cons.inj (hnext.trans hc)
        obtain ⟨hindex', hnext'⟩ := c.next.next_spec (by simp [htail])
        have hkind : c.nextKind = .mark .openParen := by
          rw [c.nextKind_eq hrest, Token.kind, hu]
          rfl
        rw [List.map_cons, List.map_cons, hs, hu, read, expressionFrom_call hw.1 hs hkind]
        cases p.opening (.call c.index path (c.index + 1) 0) true with
        | error e => exact .inl ⟨e, _, _, rfl, rfl⟩
        | ok q =>
          rw [List.length_cons] at hfuel
          have hih := ih (p := q) (hnext'.trans htail) (fun t ht => hw.2 t (.tail _ ht)) (by omega)
          have hlen : c.index + (rest.length + 1 + 1) = c.index + 1 + 1 + rest.length := by omega
          rw [hindex', hindex, ← hlen] at hih
          exact hih
      · have hkind := nextKind_ne_of_not_beginsCall hc hstop hcall
        rw [List.map_cons, read_cons (head?_ne_of_not_beginsCall hcall),
          expressionFrom_feed hw.1 hkind]
        cases p.feed c.index c.current.shape with
        | error e => exact .inl ⟨e, _, _, rfl, rfl⟩
        | ok q =>
          have hih := ih (p := q) (hnext.trans hc) hw.2 (by omega)
          have hlen : c.index + (rest.length + 1) = c.index + 1 + rest.length := by omega
          rw [hindex, ← hlen] at hih
          exact hih

theorem awaitsOperand_of_binaryOf? {s : Shape} {o : Operator} (h : binaryOf? s = some o) :
    awaitsOperand s = true := by
  obtain ⟨m, rfl⟩ := exists_mark_of_binaryOf? h
  obtain ⟨ho, -⟩ := Option.filter_eq_some_iff.mp h
  simp [awaitsOperand, ho]

theorem awaitsOperand_of_prefixOf? {s : Shape} {o : Operator} (h : prefixOf? s = some o) :
    awaitsOperand s = true := by
  obtain ⟨m, rfl⟩ := exists_mark_of_prefixOf? h
  obtain ⟨o', ho, -⟩ := Option.bind_eq_some_iff.mp h
  simp [awaitsOperand, ho]

/-- Where an operand is wanted, nothing has been read, or the last token has asked for one. -/
theorem Reached.eq_start_or {start : Nat} {ws : List Shape} (h : Reached start ws p)
    (hp : p.wantsOperand = true) :
    (p.output = [] ∧ p.pending = []) ∨
      (p.isOpen = true ∧ ∃ ws' s, ws = ws' ++ [s] ∧ awaitsOperand s = true) := by
  have hopen : p.pending ≠ [] → p.isOpen = true := fun hpending => by
    simp [Progress.isOpen, Progress.isStarted, hp, hpending]
  obtain ⟨output, pending, wantsOperand, justOpened⟩ := p
  cases h.wants_of_wantsOperand hp with
  | start => exact .inl ⟨rfl, rfl⟩
  | @group ws _ _ h => exact .inr ⟨hopen (List.cons_ne_nil _ _), ws, _, rfl, rfl⟩
  | @unary ws _ _ _ _ h ho =>
    exact .inr ⟨hopen (List.cons_ne_nil _ _), ws, _, rfl, awaitsOperand_of_prefixOf? ho⟩
  | @binary ws ls _ _ _ _ _ h ho hb hl =>
    exact .inr ⟨hopen (List.cons_ne_nil _ _), ws ++ ls, _, by simp, awaitsOperand_of_binaryOf? ho⟩
  | @call ws _ _ path h =>
    exact .inr ⟨hopen (List.cons_ne_nil _ _), ws ++ [.identifier path], .mark .openParen, by simp,
      rfl⟩
  | @comma ws as _ _ _ path h hs =>
    exact .inr ⟨hopen (List.cons_ne_nil _ _), ws ++ (.identifier path :: .mark .openParen :: as),
      .mark .comma, by simp, rfl⟩

theorem nonEmpty_eq_ok {r : Parse Expr} {c c' : Cursor} {e : Expr} :
    nonEmpty r c = .ok e c' ↔ r c = .ok e c' ∧ e ≠ [] := by
  have hbind : nonEmpty r c = (r >>= fun e =>
      if e = [] then throw (c.unexpectedDetailed "expected an expression") else pure e) c := by
    change EStateM.bind r _ c = EStateM.bind r _ c
    congr 1
    funext e
    cases e <;> rfl
  rw [hbind]
  change EStateM.bind r _ c = _ ↔ _
  unfold EStateM.bind
  cases r c with
  | error f c'' => simp
  | ok e' c'' =>
    cases e' with
    | nil =>
      constructor
      · intro h
        cases h
      · rintro ⟨h, he⟩
        cases h
        exact absurd rfl he
    | cons n e' =>
      constructor
      · intro h
        cases h
        exact ⟨rfl, List.cons_ne_nil n e'⟩
      · rintro ⟨h, -⟩
        cases h
        rfl

theorem SyntaxTree.nodes_ne_nil (t : SyntaxTree) : t.nodes ≠ [] := by
  cases t <;> simp [SyntaxTree.nodes]

section

variable {c : Cursor} {w after : List Token} {stop : Token}

theorem length_lt_fuel (h : c.current :: c.rest = w ++ stop :: after) : w.length < c.fuel := by
  have hlen := congrArg List.length h
  rw [List.length_cons, List.length_append, List.length_cons] at hlen
  rw [Cursor.fuel, Cursor.remaining]
  omega

/-- Derivable tokens are read. -/
theorem expression_of_derives {t : SyntaxTree} (h : c.current :: c.rest = w ++ stop :: after)
    (hw : ∀ t ∈ w, IsPart t) (hstop : endsExpression none stop.kind = true)
    (ht : Derives 0 c.index (w.map Token.shape) t) :
    expression none c = .ok t.nodes (Cursor.pastEnd ⟨c.index + w.length, stop, after⟩) := by
  obtain ⟨output, pending, hread, hfinish⟩ := exists_finish_of_derives ht
  change expressionFrom c.fuel none .start c = _
  rcases expressionFrom_read (p := .start) h hw hstop (length_lt_fuel h) with
    ⟨e, f, c', herror, -⟩ | ⟨q, fuel', hq, hrun⟩
  · rw [herror] at hread
    cases hread
  · cases hq.symm.trans hread
    have hclosed : Progress.isOpen ⟨output, pending, false, false⟩ = false := rfl
    rw [hrun, expressionFrom_end (c := ⟨c.index + w.length, stop, after⟩) hstop fun _ => hclosed,
      endExpression_of_not_isOpen hclosed, hfinish]

/-- Tokens that are read as an expression are derivable. -/
theorem exists_derives_of_expression {e : Expr} {c' : Cursor}
    (h : c.current :: c.rest = w ++ stop :: after) (hw : ∀ t ∈ w, IsPart t)
    (hstop : endsExpression none stop.kind = true)
    (hlast : stop.kind = .terminator → ∀ t ∈ w.getLast?, awaitsOperand t.shape = false)
    (he : expression none c = .ok e c') (hne : e ≠ []) :
    ∃ t, Derives 0 c.index (w.map Token.shape) t := by
  change expressionFrom c.fuel none .start c = _ at he
  rcases expressionFrom_read (p := .start) h hw hstop (length_lt_fuel h) with
    ⟨_, f, c'', -, herror⟩ | ⟨q, fuel', hq, hrun⟩
  · rw [herror] at he
    cases he
  · have hreached : Reached c.index (w.map Token.shape) q := (Reached.wants .start).read hq
    have hopen : stop.kind = .terminator → q.isOpen = false := by
      intro hk
      rw [← Bool.not_eq_true]
      intro hopen
      have hwants : q.wantsOperand = true := (Bool.and_eq_true_iff.mp hopen).1
      rcases hreached.eq_start_or hwants with ⟨hout, hpend⟩ | ⟨-, ws', s, hs, hawaits⟩
      · simp [Progress.isOpen, Progress.isStarted, hout, hpend] at hopen
      · obtain ⟨ws, ts, rfl, -, hts⟩ := List.map_eq_append_iff.mp hs
        obtain ⟨t, rfl, rfl⟩ := List.map_eq_singleton_iff.mp hts
        rw [hlast hk t List.getLast?_concat] at hawaits
        cases hawaits
    rw [hrun, expressionFrom_end (c := ⟨c.index + w.length, stop, after⟩) hstop hopen] at he
    obtain ⟨hclosed, hfinish⟩ := endExpression_eq_ok he
    have hwants : q.wantsOperand = false := by
      rw [← Bool.not_eq_true]
      intro hwants
      rcases hreached.eq_start_or hwants with ⟨hout, hpend⟩ | ⟨hopen, -⟩
      · rw [hout, hpend] at hfinish
        cases hfinish
        exact hne rfl
      · rw [hclosed] at hopen
        cases hopen
    obtain ⟨t, ht, -⟩ := exists_derives_of_finish hq hwants hfinish
    exact ⟨t, ht⟩

/-- Tokens without `if`, up to one that ends an expression, have a value if and only if they are
derivable. Their tree is the only one; its nodes are the value. A terminator that ends an expression
does not stand where an operand is wanted. -/
theorem valueExpression_iff_derives (h : c.current :: c.rest = w ++ stop :: after)
    (hw : ∀ t ∈ w, IsPart t) (hstop : endsExpression none stop.kind = true)
    (hlast : stop.kind = .terminator → ∀ t ∈ w.getLast?, awaitsOperand t.shape = false) :
    ((∃ e c', valueExpression none c = .ok e c') ↔
      ∃ t, Derives 0 c.index (w.map Token.shape) t) ∧
    ∀ t, Derives 0 c.index (w.map Token.shape) t →
      valueExpression none c =
        .ok t.nodes (Cursor.pastEnd ⟨c.index + w.length, stop, after⟩) ∧
      ∀ t', Derives 0 c.index (w.map Token.shape) t' → t' = t := by
  have hvalue : ∀ t, Derives 0 c.index (w.map Token.shape) t → valueExpression none c =
      .ok t.nodes (Cursor.pastEnd ⟨c.index + w.length, stop, after⟩) := fun t ht =>
    nonEmpty_eq_ok.mpr ⟨expression_of_derives h hw hstop ht, t.nodes_ne_nil⟩
  refine ⟨⟨?_, ?_⟩, fun t ht => ⟨hvalue t ht, fun t' ht' => ht'.unique ht⟩⟩
  · rintro ⟨e, c', he⟩
    obtain ⟨he', hne⟩ := nonEmpty_eq_ok.mp he
    exact exists_derives_of_expression h hw hstop hlast he' hne
  · rintro ⟨t, ht⟩
    exact ⟨_, _, hvalue t ht⟩

end

/-- The tokens of `-a * f(b, 2)`. -/
def productTokens : List Token :=
  [⟨.mark .dash, "-", ⟨0, 1⟩⟩, ⟨.identifier ["a"], "a", ⟨1, 2⟩⟩, ⟨.mark .star, "*", ⟨3, 4⟩⟩,
    ⟨.identifier ["f"], "f", ⟨5, 6⟩⟩, ⟨.mark .openParen, "(", ⟨6, 7⟩⟩,
    ⟨.identifier ["b"], "b", ⟨7, 8⟩⟩, ⟨.mark .comma, ",", ⟨8, 9⟩⟩,
    ⟨.numeral ⟨.int 2, .none⟩, "2", ⟨10, 11⟩⟩, ⟨.mark .closeParen, ")", ⟨11, 12⟩⟩]

theorem valueExpression_product :
    let stop : Token := ⟨.terminator, "\n", ⟨12, 13⟩⟩
    let eof : Token := ⟨.endOfFile, "EOF", ⟨13, 13⟩⟩
    valueExpression none ⟨0, ⟨.mark .dash, "-", ⟨0, 1⟩⟩, productTokens.tail ++ [stop, eof]⟩ =
      .ok [.var 1 ["a"] none, .op 0 .neg, .var 5 ["b"] none, .int 7 2 (.ofIntegerSuffix .none),
        .call 3 ["f"] 2 [], .op 2 .mul] ⟨10, eof, []⟩ := by
  intro stop eof
  have hleft : Derives 9 0 [.mark .dash, .identifier ["a"]]
      (.unary 0 .neg (.atom (.var 1 ["a"] none))) :=
    .tighter (by decide) (.unary rfl (.atom rfl))
  have hargs : DerivesAll 5 [.identifier ["b"], .mark .comma, .numeral ⟨.int 2, .none⟩]
      [.atom (.var 5 ["b"] none), .atom (.int 7 2 (.ofIntegerSuffix .none))] :=
    .more (.one ((Derives.atom rfl).of_le (Nat.zero_le 10) (Nat.le_refl 10)))
      ((Derives.atom rfl).of_le (Nat.zero_le 10) (Nat.le_refl 10))
  have hproduct : Derives 0 0 (productTokens.map Token.shape) _ :=
    (Derives.binary (o := .mul) (s := .mark .star) rfl hleft (.call ["f"] hargs)).of_le
      (Nat.zero_le 9) (by decide)
  have hvalue := valueExpression_iff_derives (w := productTokens)
    (c := ⟨0, ⟨.mark .dash, "-", ⟨0, 1⟩⟩, productTokens.tail ++ [stop, eof]⟩)
    rfl (by decide) rfl (by decide)
  exact (hvalue.2 _ hproduct).1

/-- `1 +` at the end of a line is no expression, but goes on in the next line. -/
theorem valueExpression_next_line :
    ¬∀ (c : Cursor) (w after : List Token) (stop : Token),
      c.current :: c.rest = w ++ stop :: after → (∀ t ∈ w, IsPart t) →
      endsExpression none stop.kind = true →
      ((∃ e c', valueExpression none c = .ok e c') ↔
        ∃ t, Derives 0 c.index (w.map Token.shape) t) := by
  intro h
  have hline := h
    ⟨0, ⟨.numeral ⟨.int 1, .none⟩, "1", ⟨0, 1⟩⟩, [⟨.mark .plus, "+", ⟨2, 3⟩⟩,
      ⟨.terminator, "\n", ⟨3, 4⟩⟩, ⟨.numeral ⟨.int 2, .none⟩, "2", ⟨4, 5⟩⟩,
      ⟨.endOfFile, "EOF", ⟨5, 5⟩⟩]⟩
    [⟨.numeral ⟨.int 1, .none⟩, "1", ⟨0, 1⟩⟩, ⟨.mark .plus, "+", ⟨2, 3⟩⟩]
    [⟨.numeral ⟨.int 2, .none⟩, "2", ⟨4, 5⟩⟩, ⟨.endOfFile, "EOF", ⟨5, 5⟩⟩]
    ⟨.terminator, "\n", ⟨3, 4⟩⟩ rfl (by decide) rfl
  obtain ⟨t, ht⟩ := hline.mp ⟨_, _, rfl⟩
  obtain ⟨output, pending, hread, -⟩ := exists_finish_of_derives ht
  cases hread

end FrontEnd.Grammar
