import FrontEnd.Proofs.Printing.Blocks
import Mathlib.Data.List.Forall2

/-!
# Reading canonical statements

Each kind of statement is read back from its lines, given that what it holds is read. By
induction over the tree, so is every printable one, but for the indices of its tokens.
-/

namespace FrontEnd

namespace Grammar

open Printing (Piece typePieces)
open Token (Kind)

/-- A statement that is read with the end of its line. -/
theorem ReadsStatement.of_line {s : Statement}
    (hbegins : ∀ {start last : Cursor}, Covers start s.pieces last → start.BeginsStatement)
    (hcond : ∀ c, s = .cond c → ReadsConditional c)
    (hread : ∀ {start last : Cursor}, Covers start s.pieces last → last.BeginsLine →
      ∃ s', s'.withoutTokens = s.withoutTokens ∧ ∀ fuel, 4 * s.pieces.length ≤ fuel + 1 →
        statementFrom (fuel + 1) start = .ok s' last) : ReadsStatement s := by
  refine ⟨hbegins, fun {start last} hcover hline => ?_, hcond⟩
  obtain ⟨s', hs', hrun⟩ := hread hcover hline
  have hpos : 0 < s.pieces.length := List.length_pos_iff.mpr s.pieces_ne_nil
  refine ⟨s', last, hs', Cursor.skipTerminators_of_ne hline.1, fun fuel hfuel => ?_⟩
  obtain ⟨fuel, rfl⟩ := Nat.exists_eq_add_of_le' (show 1 ≤ fuel by omega)
  exact hrun fuel hfuel

theorem ReadsStatement.next (token : Nat) : ReadsStatement (.next token) := by
  refine .of_line (fun {start last} hcover => ?_) nofun fun {start last} hcover hline => ?_
  · rw [Statement.pieces] at hcover
    exact Cursor.beginsStatement_of_kind hcover.kind (by decide)
  · rw [Statement.pieces] at hcover ⊢
    have hkind : start.kind = .keyword .continueKw := hcover.kind
    have hlast : start.next.next = last := hcover.tail.tail.eq_of_nil
    refine ⟨.next start.index, rfl, fun fuel _ => ?_⟩
    rw [statementFrom]
    simp only [get_bind, hkind, discard_advance_bind]
    rw [bind_run (endStatement_run hcover.tail.kind), hlast]
    rfl

theorem ReadsStatement.exit (token amount : Nat) : ReadsStatement (.exit token amount) := by
  refine .of_line (fun {start last} hcover => ?_) nofun fun {start last} hcover hline => ?_
  · rw [Statement.pieces] at hcover
    exact Cursor.beginsStatement_of_kind hcover.kind (by decide)
  · rw [Statement.pieces] at hcover ⊢
    have hkind : start.kind = .keyword .breakKw := hcover.kind
    have hend := hcover.tail.tail.tail
    have hlast : start.next.next.next.next = last := hend.tail.eq_of_nil
    refine ⟨.exit start.index amount, rfl, fun fuel _ => ?_⟩
    rw [statementFrom]
    simp only [get_bind, hkind, discard_advance_bind]
    rw [bind_run (exitAmount_run hcover.tail), bind_run (endStatement_run hend.kind), hlast]
    rfl

theorem ReadsStatement.loop {condition : Expr} {body : Block}
    (hcondition : Operand (Expr.piecesFrom [] condition) condition) (hne : condition ≠ [])
    (hbody : ReadsBlock body) (token : Nat) : ReadsStatement (.loop token condition body) := by
  refine ⟨fun {start last} hcover => ?_, fun {start last} hcover hline => ?_, nofun⟩
  · rw [Statement.pieces] at hcover
    obtain ⟨middle, hinside, -⟩ := hcover.exists_of_append
    exact Cursor.beginsStatement_of_kind hinside.kind (by decide)
  · rw [Statement.pieces] at hcover ⊢
    obtain ⟨middle, hinside, hclose⟩ := hcover.exists_of_append
    obtain ⟨brace, hfirst, hblock⟩ := hinside.exists_of_append
    have hkind : start.kind = .keyword .whileKw := hfirst.kind
    have hopen : start.next.kind ≠ .mark .openCurly := by
      have hstart : Covers start.next (Expr.piecesFrom [] condition ++ []) brace := by
        rw [List.append_nil]
        exact hfirst.tail
      have hmem := hcondition.begins.kind_mem hstart
      intro h
      rw [h] at hmem
      revert hmem
      decide
    obtain ⟨condition', hc, hreadc⟩ := hcondition.condition_run hne hfirst.tail hblock
    obtain ⟨body', hb, hreadb⟩ := hbody.run hblock.tail hclose
    have hlast : middle.next.skipTerminators = last := by
      rw [hclose.tail.skip_lineEnd, hclose.tail.tail.eq_of_nil,
        Cursor.skipTerminators_of_ne hline.1]
    refine ⟨.loop start.index condition' body', middle.next, ?_, hlast, fun fuel hfuel => ?_⟩
    · simp only [Statement.withoutTokens, hc, hb]
    · simp only [List.length_append, List.length_cons, List.length_nil] at hfuel
      obtain ⟨fuel, rfl⟩ := Nat.exists_eq_add_of_le' (show 1 ≤ fuel by omega)
      rw [statementFrom]
      simp only [get_bind, hkind, discard_advance_bind, hopen, if_false]
      rw [bind_run (hreadc fuel (by omega)), bind_run (hreadb fuel (by omega))]
      rfl

theorem ReadsStatement.ret {value : Expr}
    (hvalue : value ≠ [] → Operand (Expr.piecesFrom [] value) value) (token : Nat) :
    ReadsStatement (.ret token value) := by
  refine .of_line (fun {start last} hcover => ?_) nofun fun {start last} hcover hline => ?_
  · rw [Statement.pieces] at hcover
    exact Cursor.beginsStatement_of_kind hcover.kind (by decide)
  · rw [Statement.pieces] at hcover ⊢
    have hkind : start.kind = .keyword .returnKw := hcover.kind
    have hread : ∃ value', Expr.withoutTokens value' = Expr.withoutTokens value ∧
        ∀ fuel, 4 * (Expr.piecesFrom [] value).length < fuel →
          expressionFrom fuel none .start start.next = .ok value' last := by
      by_cases hne : value = []
      · subst hne
        rw [List.cons_append, Expr.piecesFrom] at hcover
        have hlast : start.next.next = last := hcover.tail.tail.eq_of_nil
        refine ⟨[], rfl, fun fuel hfuel => ?_⟩
        obtain ⟨fuel, rfl⟩ := Nat.exists_eq_add_of_le' (show 1 ≤ fuel by omega)
        rw [← hlast]
        exact expressionFrom_run rfl rfl (.inl ⟨rfl, hcover.tail.kind⟩) fuel
      · obtain ⟨value', hv, hread⟩ := (hvalue hne).value_run hne hcover.tail hline
        exact ⟨value', hv, fun fuel hfuel => (nonEmpty_eq_ok.mp (hread fuel hfuel)).1⟩
    obtain ⟨value', hv, hread⟩ := hread
    refine ⟨.ret start.index value', ?_, fun fuel hfuel => ?_⟩
    · simp only [Statement.withoutTokens, hv]
    · simp only [List.length_append, List.length_cons, List.length_nil] at hfuel
      rw [statementFrom]
      simp only [get_bind, hkind, discard_advance_bind]
      rw [bind_run (hread fuel (by omega))]
      rfl

theorem ReadsStatement.assign {target : Target} {value : Expr}
    (hvalue : Operand (Expr.piecesFrom [] value) value) (hne : value ≠ [])
    (htarget : target.binding = none) (token : Nat) :
    ReadsStatement (.assign token target value) := by
  refine .of_line (fun {start last} hcover => ?_) nofun fun {start last} hcover hline => ?_
  · rw [Statement.pieces] at hcover
    have hkind : start.kind = .identifier := hcover.kind
    exact Cursor.beginsStatement_of_kind hkind (by decide)
  · rw [Statement.pieces] at hcover ⊢
    have hkind : start.kind = .identifier := hcover.kind
    have hnext : start.nextKind = .mark .assign := hcover.nextKind.trans hcover.tail.kind
    have hpath : start.current.path = target.path := by
      rw [Token.path, hcover.shape]
      rfl
    obtain ⟨value', hv, hread⟩ := hvalue.value_run hne hcover.tail.tail hline
    refine ⟨.assign start.index ⟨start.index, target.path, none⟩ value', ?_,
      fun fuel hfuel => ?_⟩
    · simp only [Statement.withoutTokens, hv, htarget]
    · simp only [List.length_append, List.length_cons, List.length_nil] at hfuel
      rw [statementFrom]
      simp only [get_bind, hkind, hnext, hpath, discard_advance_bind]
      rw [bind_run (hread fuel (by omega))]
      rfl

/-- What follows a name decides between a declaration, an assignment and an expression; an operand
is never taken for one of the others. -/
theorem statementFrom_eval {ps : List Piece} (hbegins : BeginsOperand ps) {start last : Cursor}
    (hcover : Covers start (ps ++ [.lineEnd]) last) {value : Expr}
    (hlone : Expr.isLoneConditional value = false) {fuel : Nat}
    (hread : nonEmpty (expressionFrom fuel none .start) start = .ok value last) :
    statementFrom (fuel + 1) start = .ok (.eval start.index value) last := by
  rw [statementFrom]
  cases hbegins with
  | name path =>
    have hkind : start.kind = .identifier := hcover.kind
    have hnext : start.nextKind = .terminator := hcover.nextKind.trans hcover.tail.kind
    simp only [get_bind, hkind, hnext]
    rw [bind_run hread]
    rfl
  | call path rest =>
    have hkind : start.kind = .identifier := hcover.kind
    have hnext : start.nextKind = .mark .openParen := hcover.nextKind.trans hcover.tail.kind
    simp only [get_bind, hkind, hnext, Operator.ofCompound?]
    rw [bind_run hread]
    rfl
  | number number s rest =>
    have hkind : start.kind = .integer := hcover.kind
    simp only [get_bind, hkind]
    rw [bind_run hread]
    rfl
  | bool b rest =>
    have hkind : start.kind = .keyword (if b then .trueKw else .falseKw) := hcover.kind
    cases b with
    | true =>
      simp only [get_bind, hkind, if_true]
      rw [bind_run hread]
      rfl
    | false =>
      simp only [get_bind, hkind, Bool.false_eq_true, if_false]
      rw [bind_run hread]
      rfl
  | cond rest =>
    have hkind : start.kind = .keyword .ifKw := hcover.kind
    simp only [get_bind, hkind]
    rw [bind_run hread]
    split
    · cases hlone
    · rfl
  | group rest =>
    have hkind : start.kind = .mark .openParen := hcover.kind
    simp only [get_bind, hkind]
    rw [bind_run hread]
    rfl

theorem ReadsStatement.eval {value : Expr}
    (hvalue : Operand (Expr.piecesFrom [] value) value) (hne : value ≠ [])
    (hlone : Expr.isLoneConditional value = false) (token : Nat) :
    ReadsStatement (.eval token value) := by
  refine .of_line (fun {start last} hcover => ?_) nofun fun {start last} hcover hline => ?_
  · rw [Statement.pieces] at hcover
    exact hvalue.begins.beginsStatement hcover
  · rw [Statement.pieces] at hcover ⊢
    obtain ⟨value', hv, hread⟩ := hvalue.value_run hne hcover hline
    have hlone' : Expr.isLoneConditional value' = false := by
      rw [← Expr.isLoneConditional_withoutTokens, hv, Expr.isLoneConditional_withoutTokens, hlone]
    refine ⟨.eval start.index value', ?_, fun fuel hfuel => ?_⟩
    · simp only [Statement.withoutTokens, hv]
    · simp only [List.length_append, List.length_cons, List.length_nil] at hfuel
      exact statementFrom_eval hvalue.begins hcover hlone' (hread fuel (by omega))

theorem ReadsStatement.cond {c : Conditional} (h : ReadsConditional c) :
    ReadsStatement (.cond c) := by
  refine .of_line (fun {start last} hcover => ?_) ?_ fun {start last} hcover hline => ?_
  · rw [Statement.pieces] at hcover
    exact Cursor.beginsStatement_of_kind hcover.kind (by decide)
  · rintro _ ⟨⟩
    exact h
  · rw [Statement.pieces] at hcover ⊢
    have hkind : start.kind = .keyword .ifKw := hcover.kind
    obtain ⟨value, hv, hread⟩ := (Operand.cond h).value_run (List.cons_ne_nil _ _) hcover hline
    obtain ⟨c', rfl, hc'⟩ := Expr.eq_cond_of_withoutTokens hv
    refine ⟨.cond c', ?_, fun fuel hfuel => ?_⟩
    · simp only [Statement.withoutTokens, hc']
    · simp only [List.length_append, List.length_cons, List.length_nil] at hfuel
      rw [statementFrom]
      simp only [get_bind, hkind]
      rw [bind_run (hread fuel (by rw [List.length_cons]; omega))]
      rfl

/-- What follows the name of a declaration and its colon. -/
def declareFrom (fuel token : Nat) (name : String) : Parse Statement := do
  match (← get).kind with
  | .mark .assign =>
    discard advance
    let value ← nonEmpty (expressionFrom fuel none .start)
    return .declare token name none value none
  | .identifier =>
    let type ← typeName
    if (← get).kind = .mark .assign then
      discard advance
      let value ← nonEmpty (expressionFrom fuel none .start)
      return .declare token name (some type) value none
    else
      endStatement
      return .declare token name (some type) [] none
  | .terminator | .mark .closeCurly | .endOfFile =>
    endStatement
    return .declare token name none [] none
  | _ => failExpected "expected `=` or a type"

theorem statementFrom_declare {name : String} {ps : List Piece} {start last : Cursor}
    (hcover : Covers start (.name [name] :: .mark .colon :: ps) last) (fuel : Nat) :
    statementFrom (fuel + 1) start = declareFrom fuel start.index name start.next.next := by
  have hkind : start.kind = .identifier := hcover.kind
  have hnext : start.nextKind = .mark .colon := hcover.nextKind.trans hcover.tail.kind
  have hcolon : expect (.mark .colon) start.next = .ok start.next.index start.next.next :=
    expect_run hcover.tail.kind
  rw [statementFrom]
  simp only [get_bind, hkind, hnext]
  rw [bind_run (simpleIdentifier_run hcover)]
  rw [bind_run (discard_run hcolon)]
  rfl

/-- The value of a declaration is read, or its line ends. -/
theorem declareFrom_run {type : Option ValueType} {value : Expr}
    (htype : ∀ t ∈ type, t ∈ ValueType.named)
    (hvalue : value ≠ [] → Operand (Expr.piecesFrom [] value) value) {start last : Cursor}
    (hcover : Covers start ((type.map typePieces).getD [] ++
      (if value.isEmpty then [] else .mark .assign :: Expr.piecesFrom [] value) ++ [.lineEnd]) last)
    (hline : last.BeginsLine) (token : Nat) (name : String) :
    ∃ value', Expr.withoutTokens value' = Expr.withoutTokens value ∧
      ∀ fuel, 4 * (Expr.piecesFrom [] value).length < fuel →
        declareFrom fuel token name start = .ok (.declare token name type value' none) last := by
  cases value with
  | nil =>
    refine ⟨[], rfl, fun fuel _ => ?_⟩
    rw [declareFrom]
    cases type with
    | none =>
      have hcover : Covers start [.lineEnd] last := hcover
      have hkind : start.kind = .terminator := hcover.kind
      simp only [get_bind, hkind]
      rw [bind_run (endStatement_run hkind), hcover.tail.eq_of_nil]
      rfl
    | some type =>
      have hcover : Covers start (.name [type.toText] :: [.lineEnd]) last := hcover
      have hkind : start.kind = .identifier := hcover.kind
      have hend : start.next.kind = .terminator := hcover.tail.kind
      simp only [get_bind, hkind]
      rw [bind_run (typeName_run (htype type rfl) hcover)]
      simp only [get_bind, hend, reduceCtorEq, if_false]
      rw [bind_run (endStatement_run hend), hcover.tail.tail.eq_of_nil]
      rfl
  | cons n rest =>
    have hne : n :: rest ≠ [] := List.cons_ne_nil n rest
    cases type with
    | none =>
      have hcover : Covers start
          (.mark .assign :: (Expr.piecesFrom [] (n :: rest) ++ [.lineEnd])) last := hcover
      have hkind : start.kind = .mark .assign := hcover.kind
      obtain ⟨value', hv, hread⟩ := (hvalue hne).value_run hne hcover.tail hline
      refine ⟨value', hv, fun fuel hfuel => ?_⟩
      rw [declareFrom]
      simp only [get_bind, hkind, discard_advance_bind]
      rw [bind_run (hread fuel hfuel)]
      rfl
    | some type =>
      have hcover : Covers start (.name [type.toText] ::
          .mark .assign :: (Expr.piecesFrom [] (n :: rest) ++ [.lineEnd])) last := hcover
      have hkind : start.kind = .identifier := hcover.kind
      have hassign : start.next.kind = .mark .assign := hcover.tail.kind
      obtain ⟨value', hv, hread⟩ := (hvalue hne).value_run hne hcover.tail.tail hline
      refine ⟨value', hv, fun fuel hfuel => ?_⟩
      rw [declareFrom]
      simp only [get_bind, hkind]
      rw [bind_run (typeName_run (htype type rfl) hcover)]
      simp only [get_bind, hassign, if_true, discard_advance_bind]
      rw [bind_run (hread fuel hfuel)]
      rfl

theorem ReadsStatement.declare {name : String} {type : Option ValueType} {value : Expr}
    (htype : ∀ t ∈ type, t ∈ ValueType.named)
    (hvalue : value ≠ [] → Operand (Expr.piecesFrom [] value) value) (token : Nat) :
    ReadsStatement (.declare token name type value none) := by
  refine .of_line (fun {start last} hcover => ?_) nofun fun {start last} hcover hline => ?_
  · rw [Statement.pieces] at hcover
    have hkind : start.kind = .identifier := hcover.kind
    exact Cursor.beginsStatement_of_kind hkind (by decide)
  · rw [Statement.pieces] at hcover ⊢
    obtain ⟨value', hv, hread⟩ :=
      declareFrom_run htype hvalue hcover.tail.tail hline start.index name
    refine ⟨.declare start.index name type value' none, ?_, fun fuel hfuel => ?_⟩
    · simp only [Statement.withoutTokens, hv]
    · simp only [List.length_append, List.length_cons, List.length_nil] at hfuel
      rw [statementFrom_declare hcover]
      refine hread fuel ?_
      by_cases hne : value = []
      · subst hne
        rw [Expr.piecesFrom]
        simp only [List.reverse_nil, List.flatten_nil, List.length_nil]
        omega
      · have hempty : value.isEmpty = false := by simpa using hne
        rw [hempty] at hfuel
        simp only [Bool.false_eq_true, if_false, List.length_cons] at hfuel
        omega

/-! ## Trees -/

theorem ofIntegerSuffix_integerSuffix? {type : ValueType}
    (h : type.integerSuffix?.isSome = true) :
    ValueType.ofIntegerSuffix (type.integerSuffix?.getD .none) = type := by
  cases type <;> first | rfl | cases h

mutual

theorem Node.operand {args : List (List Piece)} {es : List Expr}
    (hargs : List.Forall₂ Operand args es) :
    (n : Node) → es.length = n.operands → n.isPrintable = true →
      Operand (n.pieces args) (es.flatten ++ [n])
  | .int token value type, hlength, h => by
    obtain rfl := List.eq_nil_of_length_eq_zero hlength
    rw [Node.isPrintable, Bool.and_eq_true] at h
    rw [Node.pieces]
    refine .atom (.number _ _ _) ⟨nofun, rfl⟩ fun index => ⟨_, rfl, ?_⟩
    have htype := ofIntegerSuffix_integerSuffix? h.2
    simp [Progress.literal, Node.withoutTokens, htype]
  | .float .., _, h => by
    rw [Node.isPrintable] at h
    cases h
  | .bool token value, hlength, _ => by
    obtain rfl := List.eq_nil_of_length_eq_zero hlength
    rw [Node.pieces]
    refine .atom (.bool value _) ?_ fun index =>
      ⟨.bool index value, ?_, by simp [Node.withoutTokens]⟩
    · cases value <;> exact ⟨nofun, rfl⟩
    · cases value <;> rfl
  | .var token path binding, hlength, h => by
    obtain rfl := List.eq_nil_of_length_eq_zero hlength
    rw [Node.isPrintable, Bool.and_eq_true, Option.isNone_iff_eq_none] at h
    obtain ⟨-, rfl⟩ := h
    rw [Node.pieces]
    exact .atom (.name path) ⟨nofun, rfl⟩ fun index =>
      ⟨.var index path none, rfl, by simp [Node.withoutTokens]⟩
  | .op token o, hlength, _ => by
    rw [Node.pieces]
    cases ho : o.isPrefixOp with
    | true =>
      have hone : es.length = 1 := by simpa [Node.operands, Operator.arity, ho] using hlength
      obtain ⟨e, rfl⟩ := List.length_eq_one_iff.mp hone
      obtain ⟨ps, _, hps, hnil, rfl⟩ := List.forall₂_cons_right_iff.mp hargs
      rw [List.forall₂_nil_right_iff] at hnil
      subst hnil
      simpa using hps.unary ho token
    | false =>
      have htwo : es.length = 2 := by simpa [Node.operands, Operator.arity, ho] using hlength
      obtain ⟨e, e', rfl⟩ := List.length_eq_two.mp htwo
      obtain ⟨l, _, hl, hrest, rfl⟩ := List.forall₂_cons_right_iff.mp hargs
      obtain ⟨r, _, hr, hnil, rfl⟩ := List.forall₂_cons_right_iff.mp hrest
      rw [List.forall₂_nil_right_iff] at hnil
      subst hnil
      simpa using hl.binary ho hr token
  | .call token path arity candidates, hlength, h => by
    rw [Node.isPrintable, Bool.and_eq_true, List.isEmpty_iff] at h
    obtain ⟨-, rfl⟩ := h
    have hlength : es.length = arity := hlength
    rw [Node.pieces, ← hlength]
    exact .call path hargs token
  | .cond c, hlength, h => by
    obtain rfl := List.eq_nil_of_length_eq_zero hlength
    rw [Node.isPrintable] at h
    rw [Node.pieces]
    exact .cond (Conditional.isRead c h)

theorem Expr.operand {stack : List (List Piece)} {es : List Expr}
    (hstack : List.Forall₂ Operand stack es) :
    (e : List Node) → Expr.depthAfter es.length e = some 1 → Expr.arePrintable e = true →
      Operand (Expr.piecesFrom stack e) (es.reverse.flatten ++ e)
  | [], hdepth, _ => by
    have hone : es.length = 1 := Option.some.inj hdepth
    obtain ⟨e, rfl⟩ := List.length_eq_one_iff.mp hone
    obtain ⟨ps, _, hps, hnil, rfl⟩ := List.forall₂_cons_right_iff.mp hstack
    rw [List.forall₂_nil_right_iff] at hnil
    subst hnil
    rw [Expr.piecesFrom]
    simpa using hps
  | n :: rest, hdepth, h => by
    rw [Expr.arePrintable, Bool.and_eq_true] at h
    rw [Expr.depthAfter] at hdepth
    split at hdepth
    · cases hdepth
    next hle =>
    have htake :
        List.Forall₂ Operand (stack.take n.operands).reverse (es.take n.operands).reverse :=
      List.rel_reverse (List.forall₂_take _ hstack)
    have hn := Node.operand htake n
      (by rw [List.length_reverse, List.length_take, Nat.min_eq_left (by omega)]) h.1
    have hpushed := List.Forall₂.cons hn (List.forall₂_drop n.operands hstack)
    have hrest := Expr.operand hpushed rest
      (by rw [List.length_cons, List.length_drop]; exact hdepth) h.2
    have hall : es.reverse.flatten =
        (es.drop n.operands).reverse.flatten ++ (es.take n.operands).reverse.flatten := by
      rw [← List.flatten_append, ← List.reverse_append, List.take_append_drop]
    rw [Expr.piecesFrom, hall]
    simpa using hrest

theorem Conditional.isRead : (c : Conditional) → c.isPrintable = true → ReadsConditional c
  | .mk token condition onTrue onFalse trueReturns falseReturns, h => by
    rw [Conditional.isPrintable] at h
    simp only [Bool.and_eq_true, decide_eq_true_eq, Bool.not_eq_true'] at h
    obtain ⟨⟨⟨⟨⟨hcomplete, hcondition⟩, htrue⟩, hfalse⟩, rfl⟩, rfl⟩ := h
    exact .mk (Expr.operand .nil condition hcomplete hcondition) hcomplete.ne_nil
      (Block.isRead onTrue htrue) (Block.elseIsRead onFalse hfalse) token

theorem Block.elseIsRead : (b : List Statement) → Block.isPrintable b = true → ReadsElse b
  | [], _ => ReadsElse.nil
  | s :: rest, h => by
    rw [Block.isPrintable, Bool.and_eq_true] at h
    have hs := Statement.isRead s h.1
    have hrest := Block.isRead rest h.2
    by_cases hlone : ∃ c, s :: rest = [.cond c]
    · obtain ⟨c, heq⟩ := hlone
      obtain ⟨rfl, rfl⟩ := List.cons.inj heq
      exact .cond (hs.conditional c rfl)
    · exact .block (.cons hs hrest) (List.cons_ne_nil _ _) (not_exists.mp hlone)

theorem Statement.isRead : (s : Statement) → s.isPrintable = true → ReadsStatement s
  | .declare token name type value slot, h => by
    rw [Statement.isPrintable] at h
    simp only [Bool.and_eq_true, Bool.or_eq_true, List.isEmpty_iff, decide_eq_true_eq,
      Option.isNone_iff_eq_none] at h
    obtain ⟨⟨⟨⟨-, htype⟩, hcomplete⟩, hvalue⟩, rfl⟩ := h
    refine .declare (fun t ht => ?_) (fun hne => ?_) token
    · cases ht
      exact of_decide_eq_true htype
    · exact Expr.operand .nil value (hcomplete.resolve_left hne) hvalue
  | .assign token target value, h => by
    rw [Statement.isPrintable] at h
    simp only [Bool.and_eq_true, decide_eq_true_eq, Option.isNone_iff_eq_none] at h
    obtain ⟨⟨⟨-, hbinding⟩, hcomplete⟩, hvalue⟩ := h
    exact .assign (Expr.operand .nil value hcomplete hvalue) hcomplete.ne_nil hbinding token
  | .eval token value, h => by
    rw [Statement.isPrintable] at h
    simp only [Bool.and_eq_true, decide_eq_true_eq, Bool.not_eq_true'] at h
    obtain ⟨⟨hcomplete, hvalue⟩, hlone⟩ := h
    exact .eval (Expr.operand .nil value hcomplete hvalue) hcomplete.ne_nil hlone token
  | .ret token value, h => by
    rw [Statement.isPrintable] at h
    simp only [Bool.and_eq_true, Bool.or_eq_true, List.isEmpty_iff, decide_eq_true_eq] at h
    exact .ret (fun hne => Expr.operand .nil value (h.1.resolve_left hne) h.2) token
  | .cond c, h => by
    rw [Statement.isPrintable] at h
    exact .cond (Conditional.isRead c h)
  | .loop token condition body, h => by
    rw [Statement.isPrintable] at h
    simp only [Bool.and_eq_true, decide_eq_true_eq] at h
    obtain ⟨⟨hcomplete, hcondition⟩, hbody⟩ := h
    exact .loop (Expr.operand .nil condition hcomplete hcondition) hcomplete.ne_nil
      (Block.isRead body hbody) token
  | .exit token amount, _ => .exit token amount
  | .next token, _ => .next token

theorem Block.isRead : (b : List Statement) → Block.isPrintable b = true → ReadsBlock b
  | [], _ => .nil
  | s :: rest, h => by
    rw [Block.isPrintable, Bool.and_eq_true] at h
    exact .cons (Statement.isRead s h.1) (Block.isRead rest h.2)

end

end Grammar

end FrontEnd
