import FrontEnd.Proofs.Grammar.SyntaxTree

/-!
# Reading derivations

`read` is the effect of tokens on what has been read so far. Tokens that are derived are
read wherever an operand is wanted. Afterwards some operators of theirs may still be
pending, above what was pending before; completing them leaves the nodes of the tree.
-/

namespace FrontEnd.Grammar

open Token (Shape Mark)

/-- The progress after some tokens, of which the first one has the given index. -/
def read (p : Progress) (index : Nat) : List Shape → Except Complaint Progress
  | [] => return p
  | .identifier path :: .mark .openParen :: rest => do
    let p ← p.opening (.call index path (index + 1) 0) true
    read p (index + 2) rest
  | s :: rest => do
    let p ← p.feed index s
    read p (index + 1) rest

/-- A token that is not a name before a parenthesis is read alone. -/
theorem read_cons {s : Shape} {rest : List Shape}
    (h : ∀ path, s = .identifier path → rest.head? ≠ some (.mark .openParen)) (p : Progress)
    (index : Nat) : read p index (s :: rest) = p.feed index s >>= fun p => read p (index + 1) rest := by
  rw [read]
  intro path rest' hs hr
  exact h path hs (by rw [hr]; rfl)

theorem read_mark {m : Mark} {p q : Progress} {index : Nat} (h : p.feed index (.mark m) = .ok q)
    (rest : List Shape) : read p index (.mark m :: rest) = read q (index + 1) rest := by
  rw [read_cons (by simp), h]
  rfl

/-- Tokens are read one part after the other, unless that parts a name from its parenthesis. -/
theorem read_append {ws ws' : List Shape} (h : ws'.head? ≠ some (.mark .openParen)) (p : Progress)
    (index : Nat) :
    read p index (ws ++ ws') = read p index ws >>= fun p => read p (index + ws.length) ws' := by
  fun_induction read p index ws with
  | case1 p index => rfl
  | case2 p index path rest ih =>
    rw [List.cons_append, List.cons_append, read, bind_assoc]
    refine bind_congr fun q => ?_
    rw [ih, List.length_cons, List.length_cons, Nat.add_assoc, Nat.add_comm 2]
  | case3 p index s rest hs ih =>
    have hs' : ∀ path, s = .identifier path → (rest ++ ws').head? ≠ some (.mark .openParen) := by
      intro path hpath
      cases rest with
      | nil => exact h
      | cons s' rest => 
        rintro ⟨rfl⟩
        exact hs path rest hpath rfl
    rw [List.cons_append, read_cons hs', bind_assoc]
    refine bind_congr fun q => ?_
    rw [ih, List.length_cons, Nat.add_assoc, Nat.add_comm 1]

/-- Operators, and the tokens that they were read from. -/
abbrev Operators := List (Operator × Nat)

namespace Operators

/-- The operators where they are pending. -/
def pending (ops : Operators) : List Pending := ops.map fun o => .op o.1 o.2

/-- What is complete, the last node first, after the operators have been completed. -/
def complete (ops : Operators) (output : List Node) : List Node :=
  (ops.map fun o => Node.op o.2 o.1).reverse ++ output

theorem complete_append (ops ops' : Operators) (output : List Node) :
    complete (ops ++ ops') output = complete ops' (complete ops output) := by
  simp [complete]

theorem complete_cons (o : Operator × Nat) (ops : Operators) (output : List Node) :
    complete (o :: ops) output = complete ops (.op o.2 o.1 :: output) := by
  simp [complete]

theorem flushGroup_pending (ops : Operators) (output : List Node) (below : List Pending) :
    Progress.flushGroup output (ops.pending ++ below) =
      Progress.flushGroup (ops.complete output) below := by
  induction ops generalizing output with
  | nil => rfl
  | cons o ops ih =>
    rw [complete_cons, ← ih]
    rfl

theorem flushFor_pending {ops : Operators} {incoming : Operator}
    (h : ∀ o ∈ ops, incoming.flushes o.1 = true) (output : List Node) (below : List Pending) :
    Progress.flushFor incoming output (ops.pending ++ below) =
      Progress.flushFor incoming (ops.complete output) below := by
  induction ops generalizing output with
  | nil => rfl
  | cons o ops ih =>
    rw [List.forall_mem_cons] at h
    rw [complete_cons, ← ih h.2]
    change (if incoming.flushes o.1 = true then _ else _) = _
    rw [if_pos h.1]
    rfl

theorem finish_pending (ops : Operators) (output : List Node) :
    Progress.finish output ops.pending = .ok (ops.complete output).reverse := by
  induction ops generalizing output with
  | nil => rfl
  | cons o ops ih =>
    rw [complete_cons, ← ih]
    rfl

end Operators

/-- Nothing that is pending takes an operand before an operator of the level does. A prefix operator
never does, and at level 10 there are no others. -/
def IsBelow (level : Nat) : List Pending → Prop
  | .op o _ :: _ => o.precedence < level ∨ level = 10
  | _ => True

theorem isBelow_ten (pending : List Pending) : IsBelow 10 pending := by
  rcases pending with _ | ⟨_ | _ | _, rest⟩
  · trivial
  · exact Or.inr rfl
  · trivial
  · trivial

theorem exists_mark_of_binaryOf? {s : Shape} {o : Operator} (h : binaryOf? s = some o) :
    ∃ m, s = .mark m := by
  cases s with
  | mark m => exact ⟨m, rfl⟩
  | _ => cases h

theorem exists_mark_of_prefixOf? {s : Shape} {o : Operator} (h : prefixOf? s = some o) :
    ∃ m, s = .mark m := by
  cases s with
  | mark m => exact ⟨m, rfl⟩
  | _ => cases h

theorem flushes_of_binaryOf? {s : Shape} {o : Operator} (h : binaryOf? s = some o)
    (pending : Operator) : o.flushes pending = decide (o.precedence ≤ pending.precedence) := by
  simp [Operator.flushes, Operator.isLeftAssociative, isPrefixOp_of_binaryOf? h]

theorem precedence_le (o : Operator) : o.precedence ≤ 10 := by
  cases o <;> decide

theorem precedence_lt_of_binaryOf? {s : Shape} {o : Operator} (h : binaryOf? s = some o) :
    o.precedence < 10 := by
  have hp := isPrefixOp_of_binaryOf? h
  cases o <;> first | decide | cases hp

theorem precedence_of_isPrefixOp {o : Operator} (h : o.isPrefixOp = true) : o.precedence = 10 := by
  cases o <;> first | rfl | cases h

theorem flushes_of_prefixOf? {s : Shape} {o : Operator} (h : prefixOf? s = some o)
    (pending : Operator) : o.flushes pending = false := by
  have hp := isPrefixOp_of_prefixOf? h
  have hle := precedence_le pending
  simp [Operator.flushes, Operator.isLeftAssociative, hp, precedence_of_isPrefixOp hp, hle]

/-- Operators stay pending if they take their operands later. -/
theorem flushFor_eq_self {incoming : Operator} {pending : List Pending}
    (h : ∀ o token rest, pending = .op o token :: rest → incoming.flushes o = false)
    (output : List Node) : Progress.flushFor incoming output pending = (output, pending) := by
  rcases pending with _ | ⟨_ | _ | _, rest⟩
  · rfl
  · change (if _ then _ else _) = _
    rw [if_neg (by rw [h _ _ _ rfl]; exact Bool.false_ne_true)]
  · rfl
  · rfl

theorem feed_operator {m : Mark} {o : Operator} (h : Operator.ofMark? m = some o) (p : Progress)
    (index : Nat) : p.feed index (.mark m) = p.operator index o := by
  cases m <;> cases h <;> rfl

theorem feed_atom {index : Nat} {s : Shape} {n : Node} (h : atomOf? index s = some n)
    (output : List Node) (pending : List Pending) (opened : Bool) :
    Progress.feed ⟨output, pending, true, opened⟩ index s =
      .ok ⟨n :: output, pending, false, false⟩ := by
  cases s with
  | numeral m => cases h; rfl
  | identifier path => cases h; rfl
  | keyword k => cases k <;> cases h <;> rfl
  | _ => cases h

theorem feed_prefixOp {s : Shape} {o : Operator} (h : prefixOf? s = some o) (index : Nat)
    (output : List Node) (pending : List Pending) (opened : Bool) :
    Progress.feed ⟨output, pending, true, opened⟩ index s =
      .ok ⟨output, .op o index :: pending, true, false⟩ := by
  have hflush : Progress.flushFor o output pending = (output, pending) :=
    flushFor_eq_self (fun o' _ _ _ => flushes_of_prefixOf? h o') output
  cases s with
  | mark m =>
    rw [prefixOf?, Option.bind_eq_some_iff] at h
    obtain ⟨o', ho', ho⟩ := h
    rw [feed_operator ho', Progress.operator]
    simp [ho, hflush]
  | _ => cases h

/-- A binary operator completes the operators that have all their operands before it. -/
theorem feed_binaryOp {s : Shape} {o : Operator} (h : binaryOf? s = some o) {output output' : List Node}
    {pending pending' : List Pending}
    (hf : Progress.flushFor o output pending = (output', pending')) (index : Nat) :
    Progress.feed ⟨output, pending, false, false⟩ index s =
      .ok ⟨output', .op o index :: pending', true, false⟩ := by
  cases s with
  | mark m =>
    rw [binaryOf?, Option.filter_eq_some_iff] at h
    obtain ⟨ho, hnot⟩ := h
    rw [feed_operator ho, Progress.operator]
    simp [hf, of_decide_eq_true hnot]
  | _ => cases h

theorem feed_closeGroup {output output' : List Node} {pending pending' : List Pending} {paren : Nat}
    (hf : Progress.flushGroup output pending = (output', .group paren :: pending')) (index : Nat) :
    Progress.feed ⟨output, pending, false, false⟩ index (.mark .closeParen) =
      .ok ⟨output', pending', false, false⟩ := by
  change Progress.close _ = _
  simp [Progress.close, hf]

theorem feed_closeCall {output output' : List Node} {pending pending' : List Pending}
    {token paren commas : Nat} {path : List String}
    (hf : Progress.flushGroup output pending =
      (output', .call token path paren commas :: pending')) (index : Nat) :
    Progress.feed ⟨output, pending, false, false⟩ index (.mark .closeParen) =
      .ok ⟨.call token path (commas + 1) [] :: output', pending', false, false⟩ := by
  change Progress.close _ = _
  simp [Progress.close, hf]

theorem feed_comma {output output' : List Node} {pending pending' : List Pending}
    {token paren commas : Nat} {path : List String}
    (hf : Progress.flushGroup output pending =
      (output', .call token path paren commas :: pending')) (index : Nat) :
    Progress.feed ⟨output, pending, false, false⟩ index (.mark .comma) =
      .ok ⟨output', .call token path paren (commas + 1) :: pending', true, false⟩ := by
  change Progress.comma _ = _
  simp [Progress.comma, hf]

theorem IsBelow.mono {level level' : Nat} {pending : List Pending} (h : IsBelow level pending)
    (hl : level ≤ level') (hle : level' ≤ 10) : IsBelow level' pending := by
  rcases pending with _ | ⟨o | _ | _, rest⟩
  · trivial
  · rcases h with h | h
    · exact .inl (Nat.lt_of_lt_of_le h hl)
    · exact .inr (by omega)
  · trivial
  · trivial

/-- Tokens are read wherever an operand is wanted, and leave the nodes of a tree once the operators
that they leave pending are complete. These bind at least as tightly as the level says. -/
def Reads (level index : Nat) (ws : List Shape) (t : SyntaxTree) : Prop :=
  ∀ output pending opened, IsBelow level pending →
    ∃ (ops : Operators) (output' : List Node), (∀ o ∈ ops, level ≤ o.1.precedence) ∧
      read ⟨output, pending, true, opened⟩ index ws =
        .ok ⟨output', ops.pending ++ pending, false, false⟩ ∧
      ops.complete output' = t.nodes.reverse ++ output

/-- Tokens are read after the parenthesis of a call, or after a comma, as so many arguments. -/
def ReadsAll (index : Nat) (ws : List Shape) (ts : List SyntaxTree) : Prop :=
  ∀ output pending opened token path paren commas,
    ∃ (ops : Operators) (output' : List Node),
      read ⟨output, .call token path paren commas :: pending, true, opened⟩ index ws =
        .ok ⟨output', ops.pending ++ .call token path paren (commas + (ts.length - 1)) :: pending,
          false, false⟩ ∧
      ops.complete output' = (nodesOfAll ts).reverse ++ output

theorem Reads.atom {index : Nat} {s : Shape} {n : Node} (h : atomOf? index s = some n) :
    Reads 10 index [s] (.atom n) := by
  intro output pending opened _
  refine ⟨[], n :: output, List.forall_mem_nil _, ?_, rfl⟩
  rw [read_cons (by simp), feed_atom h]
  rfl

theorem Reads.unary {index : Nat} {s : Shape} {o : Operator} {ws : List Shape} {t : SyntaxTree}
    (h : prefixOf? s = some o) (ht : Reads 10 (index + 1) ws t) :
    Reads 10 index (s :: ws) (.unary index o t) := by
  intro output pending opened _
  obtain ⟨ops, output', hops, hread, hcomplete⟩ :=
    ht output (.op o index :: pending) false (isBelow_ten _)
  have ho : o.precedence = 10 := precedence_of_isPrefixOp (isPrefixOp_of_prefixOf? h)
  obtain ⟨m, rfl⟩ := exists_mark_of_prefixOf? h
  refine ⟨ops ++ [(o, index)], output', ?_, ?_, ?_⟩
  · rw [List.forall_mem_append, List.forall_mem_singleton]
    exact ⟨hops, Nat.le_of_eq ho.symm⟩
  · rw [read_mark (feed_prefixOp h index output pending opened)]
    simpa [Operators.pending] using hread
  · rw [Operators.complete_append, hcomplete]
    simp [Operators.complete, SyntaxTree.nodes]

theorem Reads.group {index : Nat} {ws : List Shape} {t : SyntaxTree} (h : Reads 0 (index + 1) ws t) :
    Reads 10 index (.mark .openParen :: ws ++ [.mark .closeParen]) t := by
  intro output pending opened _
  obtain ⟨ops, output', -, hread, hcomplete⟩ := h output (.group index :: pending) false trivial
  have hflush : Progress.flushGroup output' (ops.pending ++ .group index :: pending) =
      (t.nodes.reverse ++ output, .group index :: pending) := by
    rw [Operators.flushGroup_pending, hcomplete]
    rfl
  have hopen : Progress.feed ⟨output, pending, true, opened⟩ index (.mark .openParen) =
      .ok ⟨output, .group index :: pending, true, false⟩ := rfl
  refine ⟨[], t.nodes.reverse ++ output, List.forall_mem_nil _, ?_, rfl⟩
  rw [List.cons_append, read_mark hopen, read_append (by simp), hread]
  exact read_mark (feed_closeGroup hflush _) []

theorem Reads.callEmpty (index : Nat) (path : List String) :
    Reads 10 index [.identifier path, .mark .openParen, .mark .closeParen]
      (.call index path []) := by
  intro output pending opened _
  exact ⟨[], .call index path 0 [] :: output, List.forall_mem_nil _, rfl, rfl⟩

theorem Reads.call {index : Nat} (path : List String) {ws : List Shape} {ts : List SyntaxTree}
    (h : ReadsAll (index + 2) ws ts) (hlen : 0 < ts.length) :
    Reads 10 index (.identifier path :: .mark .openParen :: ws ++ [.mark .closeParen])
      (.call index path ts) := by
  intro output pending opened _
  obtain ⟨ops, output', hread, hcomplete⟩ := h output pending true index path (index + 1) 0
  have hflush : Progress.flushGroup output'
      (ops.pending ++ .call index path (index + 1) (0 + (ts.length - 1)) :: pending) =
      ((nodesOfAll ts).reverse ++ output,
        .call index path (index + 1) (0 + (ts.length - 1)) :: pending) := by
    rw [Operators.flushGroup_pending, hcomplete]
    rfl
  have harity : 0 + (ts.length - 1) + 1 = ts.length := by omega
  refine ⟨[], .call index path (0 + (ts.length - 1) + 1) [] :: ((nodesOfAll ts).reverse ++ output),
    List.forall_mem_nil _, ?_, ?_⟩
  · rw [List.cons_append, List.cons_append, read]
    change read _ (index + 2) (ws ++ _) = _
    rw [read_append (by simp), hread]
    exact read_mark (feed_closeCall hflush _) []
  · rw [harity]
    simp [Operators.complete, SyntaxTree.nodes]

theorem Reads.binary {index : Nat} {s : Shape} {o : Operator} {ls rs : List Shape} {l r : SyntaxTree}
    (h : binaryOf? s = some o) (hl : Reads o.precedence index ls l)
    (hr : Reads (o.precedence + 1) (index + ls.length + 1) rs r) :
    Reads o.precedence index (ls ++ s :: rs) (.binary (index + ls.length) o l r) := by
  intro output pending opened hb
  obtain ⟨ops, output', hops, hread, hcomplete⟩ := hl output pending opened hb
  obtain ⟨m, rfl⟩ := exists_mark_of_binaryOf? h
  have hm : m ≠ .openParen := by
    rintro rfl
    cases h
  have hlt := precedence_lt_of_binaryOf? h
  have hflush : Progress.flushFor o output' (ops.pending ++ pending) =
      (l.nodes.reverse ++ output, pending) := by
    have hall : ∀ o' ∈ ops, o.flushes o'.1 = true := fun o' ho' => by
      rw [flushes_of_binaryOf? h]
      exact decide_eq_true (hops o' ho')
    rw [Operators.flushFor_pending hall, hcomplete]
    refine flushFor_eq_self (fun o' token rest hp => ?_) _
    subst hp
    rw [flushes_of_binaryOf? h]
    rcases hb with hb | hb
    · exact decide_eq_false (Nat.not_le.mpr hb)
    · omega
  obtain ⟨ops', output'', hops', hread', hcomplete'⟩ :=
    hr (l.nodes.reverse ++ output) (.op o (index + ls.length) :: pending) false
      (.inl (Nat.lt_succ_self _))
  refine ⟨ops' ++ [(o, index + ls.length)], output'', ?_, ?_, ?_⟩
  · rw [List.forall_mem_append, List.forall_mem_singleton]
    exact ⟨fun o' ho' => Nat.le_of_succ_le (hops' o' ho'), Nat.le_refl _⟩
  · rw [read_append (by simpa using hm), hread]
    change read _ _ (_ :: rs) = _
    rw [read_mark (feed_binaryOp h hflush _)]
    simpa [Operators.pending] using hread'
  · rw [Operators.complete_append, hcomplete']
    simp [Operators.complete, SyntaxTree.nodes]

theorem Reads.tighter {level index : Nat} {ws : List Shape} {t : SyntaxTree} (hl : level < 10)
    (h : Reads (level + 1) index ws t) : Reads level index ws t := by
  intro output pending opened hb
  obtain ⟨ops, output', hops, hread, hcomplete⟩ :=
    h output pending opened (hb.mono (Nat.le_succ level) hl)
  exact ⟨ops, output', fun o ho => Nat.le_of_succ_le (hops o ho), hread, hcomplete⟩

theorem ReadsAll.one {index : Nat} {ws : List Shape} {t : SyntaxTree} (h : Reads 0 index ws t) :
    ReadsAll index ws [t] := by
  intro output pending opened token path paren commas
  obtain ⟨ops, output', -, hread, hcomplete⟩ :=
    h output (.call token path paren commas :: pending) opened trivial
  exact ⟨ops, output', hread, by simpa [nodesOfAll] using hcomplete⟩

theorem ReadsAll.more {index : Nat} {ws rs : List Shape} {ts : List SyntaxTree} {t : SyntaxTree}
    (hs : ReadsAll index ws ts) (hlen : 0 < ts.length)
    (h : Reads 0 (index + ws.length + 1) rs t) :
    ReadsAll index (ws ++ .mark .comma :: rs) (ts ++ [t]) := by
  intro output pending opened token path paren commas
  obtain ⟨ops, output', hread, hcomplete⟩ := hs output pending opened token path paren commas
  have hflush : Progress.flushGroup output'
      (ops.pending ++ .call token path paren (commas + (ts.length - 1)) :: pending) =
      ((nodesOfAll ts).reverse ++ output,
        .call token path paren (commas + (ts.length - 1)) :: pending) := by
    rw [Operators.flushGroup_pending, hcomplete]
    rfl
  have hcommas : commas + (ts.length - 1) + 1 = commas + ((ts ++ [t]).length - 1) := by
    rw [List.length_append, List.length_singleton]
    omega
  obtain ⟨ops', output'', -, hread', hcomplete'⟩ :=
    h ((nodesOfAll ts).reverse ++ output)
      (.call token path paren (commas + (ts.length - 1) + 1) :: pending) false trivial
  refine ⟨ops', output'', ?_, ?_⟩
  · rw [read_append (by simp), hread, ← hcommas]
    change read _ _ (_ :: rs) = _
    rw [read_mark (feed_comma hflush _)]
    exact hread'
  · rw [hcomplete', nodesOfAll_append]
    simp [nodesOfAll]

theorem DerivesAll.length_pos {index : Nat} {ws : List Shape} {ts : List SyntaxTree}
    (h : DerivesAll index ws ts) : 0 < ts.length := by
  cases h with
  | one => exact Nat.one_pos
  | more => simp

mutual

theorem reads_of_derives {level index : Nat} {ws : List Shape} {t : SyntaxTree} :
    Derives level index ws t → Reads level index ws t
  | .atom h => .atom h
  | .unary h ht => .unary h (reads_of_derives ht)
  | .group h => .group (reads_of_derives h)
  | .callEmpty path => .callEmpty index path
  | .call path h => .call path (readsAll_of_derivesAll h) h.length_pos
  | .binary h hl hr => .binary h (reads_of_derives hl) (reads_of_derives hr)
  | .tighter hl h => .tighter hl (reads_of_derives h)

theorem readsAll_of_derivesAll {index : Nat} {ws : List Shape} {ts : List SyntaxTree} :
    DerivesAll index ws ts → ReadsAll index ws ts
  | .one h => .one (reads_of_derives h)
  | .more hs h => .more (readsAll_of_derivesAll hs) hs.length_pos (reads_of_derives h)

end

/-- The tokens of an expression are read, and its nodes are what they end with. -/
theorem exists_finish_of_derives {level index : Nat} {ws : List Shape} {t : SyntaxTree}
    (h : Derives level index ws t) :
    ∃ output pending, read .start index ws = .ok ⟨output, pending, false, false⟩ ∧
      Progress.finish output pending = .ok t.nodes := by
  obtain ⟨ops, output, -, hread, hcomplete⟩ := reads_of_derives h [] [] false trivial
  rw [List.append_nil] at hread hcomplete
  refine ⟨output, ops.pending, hread, ?_⟩
  rw [Operators.finish_pending, hcomplete, List.reverse_reverse]

/-- Tokens have one tree at most. -/
theorem Derives.unique {level level' index : Nat} {ws : List Shape} {t t' : SyntaxTree}
    (h : Derives level index ws t) (h' : Derives level' index ws t') : t = t' := by
  obtain ⟨output, pending, hread, hfinish⟩ := exists_finish_of_derives h
  obtain ⟨output', pending', hread', hfinish'⟩ := exists_finish_of_derives h'
  cases hread.symm.trans hread'
  exact h.eq_of_nodes h' (Except.ok.inj (hfinish.symm.trans hfinish'))

end FrontEnd.Grammar
