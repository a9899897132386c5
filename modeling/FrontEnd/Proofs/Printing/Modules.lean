import FrontEnd.Proofs.Printing.Statements

/-!
# Parsing undoes printing

The canonical text of a printable module is scanned and parsed, and gives the module back
but for the indices of its tokens.
-/

namespace FrontEnd

namespace Grammar

open Printing (Piece commaSeparated typePieces visibility)
open Token (Kind Mark Keyword)

/-! ## Parameters and selected names -/

/-- The place of the next parameter, if a comma says that there may be one. -/
def Cursor.pastComma (c : Cursor) : Cursor :=
  if c.kind = .mark .comma then c.next.skipTerminators else c

/-- A turn of the loop over parameters, up to the mark after the parameter. -/
theorem paramsFrom_succ {p : Param} (htype : p.type ∈ ValueType.named) {start middle : Cursor}
    (hcover : Covers start p.pieces middle)
    (hmark : middle.kind = .mark .comma ∨ middle.kind = .mark .closeParen) (fuel : Nat)
    (done : List Param) :
    paramsFrom (fuel + 1) done start =
      paramsFrom fuel (⟨start.index, p.name, p.type⟩ :: done) middle.pastComma := by
  have hkind : start.kind = .identifier := hcover.kind
  have hcolon : expect (.mark .colon) start.next = .ok start.next.index start.next.next :=
    expect_run hcover.tail.kind
  have htypeName : typeName start.next.next = .ok p.type start.next.next.next :=
    typeName_run htype hcover.tail.tail
  have hmiddle : start.next.next.next = middle := hcover.tail.tail.tail.eq_of_nil
  have hline : middle.kind ≠ .terminator := by
    rcases hmark with hmark | hmark <;> rw [hmark] <;> decide
  rw [paramsFrom]
  simp only [get_bind, hkind, reduceCtorEq, if_false]
  rw [bind_run (simpleIdentifier_run hcover)]
  simp only
  rw [bind_run (discard_run hcolon), bind_run htypeName]
  simp only [skipTerminators_bind, get_bind, hmiddle, Cursor.skipTerminators_of_ne hline]
  rcases hmark with hmark | hmark
  · rw [Cursor.pastComma, if_pos hmark]
    simp only [hmark]
    rfl
  · rw [Cursor.pastComma, if_neg (by rw [hmark]; decide)]
    simp only [hmark]

theorem Covers.kind_params {p : Param} {params : List Param} {start last : Cursor}
    (hcover : Covers start (commaSeparated ((p :: params).map Param.pieces)) last) :
    start.kind = .identifier := by
  cases params with
  | nil =>
    rw [List.map_singleton, Printing.commaSeparated_singleton] at hcover
    exact hcover.kind
  | cons p' params =>
    rw [List.map_cons, List.map_cons, Printing.commaSeparated_cons_cons] at hcover
    exact hcover.kind

/-- Parameters are read up to the parenthesis after them. -/
theorem paramsFrom_run {params : List Param} (h : ∀ p ∈ params, p.type ∈ ValueType.named)
    {start last : Cursor} (hcover : Covers start (commaSeparated (params.map Param.pieces)) last)
    (hlast : last.kind = .mark .closeParen) :
    ∃ params', params'.map Param.withoutToken = params.map Param.withoutToken ∧
      ∀ fuel done, (commaSeparated (params.map Param.pieces)).length < fuel →
        paramsFrom fuel done start = .ok (done.reverse ++ params') last.next := by
  induction params generalizing start with
  | nil =>
    have hstart : start = last := hcover.eq_of_nil
    refine ⟨[], rfl, fun fuel done hfuel => ?_⟩
    obtain ⟨fuel, rfl⟩ := Nat.exists_eq_add_of_le' (show 1 ≤ fuel by omega)
    rw [paramsFrom]
    simp only [get_bind, hstart, hlast, if_true, discard_advance_bind, pure_run, List.append_nil]
  | cons p params ih =>
    obtain ⟨hp, hparams⟩ := List.forall_mem_cons.mp h
    cases params with
    | nil =>
      have hpieces : commaSeparated ([p].map Param.pieces) = p.pieces :=
        Printing.commaSeparated_singleton _
      rw [hpieces] at hcover ⊢
      refine ⟨[⟨start.index, p.name, p.type⟩], rfl, fun fuel done hfuel => ?_⟩
      rw [Param.pieces, List.length_cons] at hfuel
      obtain ⟨fuel, rfl⟩ := Nat.exists_eq_add_of_le' (show 2 ≤ fuel by omega)
      rw [paramsFrom_succ hp hcover (.inr hlast), Cursor.pastComma, if_neg (by rw [hlast]; decide),
        paramsFrom]
      simp only [get_bind, hlast, if_true, discard_advance_bind, pure_run, List.reverse_cons]
    | cons p' params =>
      have hpieces : commaSeparated ((p :: p' :: params).map Param.pieces) =
          p.pieces ++ .mark .comma :: commaSeparated ((p' :: params).map Param.pieces) :=
        Printing.commaSeparated_cons_cons _ _ _
      rw [hpieces] at hcover ⊢
      obtain ⟨middle, hfirst, hrest⟩ := hcover.exists_of_append
      have hcomma : middle.kind = .mark .comma := hrest.kind
      obtain ⟨params', hparams', hread⟩ := ih hparams hrest.tail
      refine ⟨⟨start.index, p.name, p.type⟩ :: params', ?_, fun fuel done hfuel => ?_⟩
      · rw [List.map_cons, hparams', List.map_cons]
        rfl
      · rw [List.length_append, List.length_cons] at hfuel
        obtain ⟨fuel, rfl⟩ := Nat.exists_eq_add_of_le' (show 1 ≤ fuel by omega)
        have hnext : middle.pastComma = middle.next := by
          have hkind := hrest.tail.kind_params
          rw [Cursor.pastComma, if_pos hcomma,
            Cursor.skipTerminators_of_ne (by rw [hkind]; decide)]
        rw [paramsFrom_succ hp hfirst (.inl hcomma), hnext, hread fuel _ (by omega)]
        simp

/-- Selected names are read up to the bracket after them. -/
theorem selectedFrom_run {selected : List (Nat × String)} (hne : selected ≠ [])
    {start last : Cursor}
    (hcover : Covers start (commaSeparated (selected.map fun s => [.name [s.2]])) last)
    (hlast : last.kind = .mark .closeBracket) :
    ∃ selected' : List (Nat × String),
      (selected'.map fun s => (0, s.2)) = (selected.map fun s => (0, s.2)) ∧
      ∀ fuel done,
        (commaSeparated (selected.map fun s => [Piece.name [s.2]])).length ≤ fuel →
        selectedFrom fuel done start = .ok (done.reverse ++ selected') last.next := by
  induction selected generalizing start with
  | nil => exact absurd rfl hne
  | cons s selected ih =>
    cases selected with
    | nil =>
      have hpieces : commaSeparated ([s].map fun s => [Piece.name [s.2]]) = [.name [s.2]] :=
        Printing.commaSeparated_singleton _
      rw [hpieces] at hcover ⊢
      have hkind : start.kind = .identifier := hcover.kind
      have hnext : start.next = last := hcover.tail.eq_of_nil
      have hskip : start.skipTerminators = start :=
        Cursor.skipTerminators_of_ne (by rw [hkind]; decide)
      refine ⟨[(start.index, s.2)], rfl, fun fuel done hfuel => ?_⟩
      rw [List.length_singleton] at hfuel
      obtain ⟨fuel, rfl⟩ := Nat.exists_eq_add_of_le' hfuel
      rw [selectedFrom]
      simp only [skipTerminators_bind, hskip]
      rw [bind_run (simpleIdentifier_run hcover), hnext]
      simp only [skipTerminators_bind, get_bind,
        Cursor.skipTerminators_of_ne (c := last) (by rw [hlast]; decide), hlast,
        discard_advance_bind, pure_run, List.reverse_cons]
    | cons s' selected =>
      have hpieces : commaSeparated ((s :: s' :: selected).map fun s => [Piece.name [s.2]]) =
          [.name [s.2]] ++ .mark .comma ::
            commaSeparated ((s' :: selected).map fun s => [Piece.name [s.2]]) :=
        Printing.commaSeparated_cons_cons _ _ _
      rw [hpieces] at hcover ⊢
      have hkind : start.kind = .identifier := hcover.kind
      have hcomma : start.next.kind = .mark .comma := hcover.tail.kind
      have hskip : start.skipTerminators = start :=
        Cursor.skipTerminators_of_ne (by rw [hkind]; decide)
      obtain ⟨selected', hselected', hread⟩ := ih (List.cons_ne_nil _ _) hcover.tail.tail
      refine ⟨(start.index, s.2) :: selected', ?_, fun fuel done hfuel => ?_⟩
      · rw [List.map_cons, hselected', List.map_cons, List.map_cons, List.map_cons]
      · simp only [List.length_append, List.length_cons, List.length_nil] at hfuel
        obtain ⟨fuel, rfl⟩ := Nat.exists_eq_add_of_le' (show 1 ≤ fuel by omega)
        rw [selectedFrom]
        simp only [skipTerminators_bind, hskip]
        rw [bind_run (simpleIdentifier_run hcover)]
        simp only [skipTerminators_bind, get_bind,
          Cursor.skipTerminators_of_ne (c := start.next) (by rw [hcomma]; decide), hcomma,
          discard_advance_bind]
        rw [hread fuel _ (by omega)]
        simp

/-! ## Items -/

/-- What follows the word that makes an item public. -/
def itemFrom (isPublic : Bool) : Parse Item := do
  match (← get).kind with
  | .keyword .fnKw =>
    discard advance
    return .function (← function isPublic)
  | .keyword .globalKw =>
    discard advance
    return .global (← global true isPublic)
  | .keyword .constKw =>
    discard advance
    return .global (← global false isPublic)
  | .keyword .importKw =>
    if isPublic then failExpected "expected an item" else return .imports (← imports)
  | .keyword .modKw =>
    if isPublic then failExpected "expected an item" else return .submodule (← submodule)
  | _ => failExpected "expected an item"

theorem item_of_public {start : Cursor} (h : start.kind = .keyword .pubKw) :
    item start = itemFrom true start.next := by
  rw [item]
  simp only [get_bind, h]
  rfl

theorem item_of_private {start : Cursor} (h : start.kind ≠ .keyword .pubKw) :
    item start = itemFrom false start := by
  have hkind : (start.kind == .keyword .pubKw) = false := beq_false_of_ne h
  rw [item]
  simp only [get_bind, hkind]
  rfl

theorem item_visibility {isPublic : Bool} {p : Piece} {ps : List Piece}
    (hp : p.shape.kind ≠ .keyword .pubKw) {start last : Cursor}
    (hcover : Covers start (visibility isPublic ++ p :: ps) last) :
    ∃ middle, Covers middle (p :: ps) last ∧ item start = itemFrom isPublic middle := by
  cases isPublic with
  | true =>
    have hcover : Covers start (.keyword .pubKw :: p :: ps) last := hcover
    exact ⟨start.next, hcover.tail, item_of_public hcover.kind⟩
  | false =>
    have hcover : Covers start (p :: ps) last := hcover
    exact ⟨start, hcover, item_of_private (hcover.kind ▸ hp)⟩

theorem submodule_run {name : String} {start last : Cursor}
    (hcover : Covers start [.keyword .modKw, .name [name], .lineEnd] last) :
    submodule start = .ok ⟨start.index, name⟩ last := by
  rw [submodule]
  simp only [advance_bind]
  rw [bind_run (simpleIdentifier_run hcover.tail)]
  simp only
  rw [bind_run (endStatement_run hcover.tail.tail.kind), hcover.tail.tail.tail.eq_of_nil]
  rfl

theorem imports_run {i : Import} {start last : Cursor}
    (hcover : Covers start (.keyword .importKw :: .name i.target.segments :: i.selectionPieces ++
      [.lineEnd]) last) :
    ∃ i', (Item.imports i').withoutTokens = (Item.imports i).withoutTokens ∧
      imports start = .ok i' last := by
  have hname : start.next.kind = .identifier := hcover.tail.kind
  have hpath : start.next.current.path = i.target.segments := by
    rw [Token.path, hcover.tail.shape]
    rfl
  by_cases hselected : i.selected = []
  · rw [Import.selectionPieces, hselected] at hcover
    have hcover : Covers start (.keyword .importKw :: .name i.target.segments :: [.lineEnd]) last :=
      hcover
    have hend : start.next.next.kind = .terminator := hcover.tail.tail.kind
    refine ⟨⟨start.index, i.target, []⟩, by simp [Item.withoutTokens, hselected], ?_⟩
    rw [imports]
    simp only [advance_bind, get_bind, hname, ne_eq, not_true, if_false, discard_advance_bind, hend,
      reduceCtorEq, pure_bind_run]
    rw [bind_run (endStatement_run hend), hcover.tail.tail.tail.eq_of_nil, hpath]
    rfl
  · have hpieces : i.selectionPieces = .mark .dot :: .mark .openBracket ::
        commaSeparated (i.selected.map fun s => [.name [s.2]]) ++ [.mark .closeBracket] :=
      if_neg (by simpa using hselected)
    rw [hpieces] at hcover
    obtain ⟨close, hinside, hend⟩ := Covers.exists_of_append hcover
    obtain ⟨bracket, hnames, hclose⟩ := hinside.tail.tail.exists_of_append
    have hdot : start.next.next.kind = .mark .dot := hnames.kind
    have hopen : expect (.mark .openBracket) start.next.next.next =
        .ok start.next.next.next.index start.next.next.next.next :=
      expect_run hnames.tail.kind
    obtain ⟨selected', hs, hread⟩ := selectedFrom_run hselected hnames.tail.tail hclose.kind
    have hfuel := hnames.tail.tail.length_le
    refine ⟨⟨start.index, i.target, selected'⟩, by simp [Item.withoutTokens, hs], ?_⟩
    rw [imports]
    simp only [advance_bind, get_bind, hname, ne_eq, not_true, if_false, discard_advance_bind, hdot,
      if_true]
    rw [bind_run (discard_run hopen)]
    simp only [get_bind]
    rw [bind_run (hread _ [] (Nat.le_succ_of_le hfuel)), hclose.tail.eq_of_nil,
      bind_run (endStatement_run hend.kind), hend.tail.eq_of_nil, hpath]
    rfl

theorem global_run {name : String} {type : ValueType} (htype : type ∈ ValueType.named)
    {start last : Cursor}
    (hcover : Covers start (.name [name] :: .mark .colon :: typePieces type ++ [.lineEnd]) last)
    (isMutable isPublic : Bool) :
    global isMutable isPublic start =
      .ok ⟨start.index, name, type, isMutable, isPublic, none⟩ last := by
  have hcolon : expect (.mark .colon) start.next = .ok start.next.index start.next.next :=
    expect_run hcover.tail.kind
  have htypeName : typeName start.next.next = .ok type start.next.next.next :=
    typeName_run htype hcover.tail.tail
  rw [global, bind_run (simpleIdentifier_run hcover)]
  simp only
  rw [bind_run (discard_run hcolon), bind_run htypeName,
    bind_run (endStatement_run hcover.tail.tail.tail.kind), hcover.tail.tail.tail.tail.eq_of_nil]
  rfl

/-- No terminator is skipped before the parameters. -/
theorem Covers.skipTerminators_params {params : List Param} {start last : Cursor}
    (hcover : Covers start (commaSeparated (params.map Param.pieces)) last)
    (hlast : last.kind = .mark .closeParen) : start.skipTerminators = start := by
  refine Cursor.skipTerminators_of_ne ?_
  cases params with
  | nil =>
    have hstart : start = last := hcover.eq_of_nil
    rw [hstart, hlast]
    decide
  | cons p params =>
    rw [hcover.kind_params]
    decide

theorem function_run {f : Function} (hparams : ∀ p ∈ f.params, p.type ∈ ValueType.named)
    (hmany : f.params.length ≤ maxParameters) (htype : f.returnType ∈ ValueType.named)
    (hbody : ReadsBlock f.body) {start last : Cursor} (hcover : Covers start f.pieces last)
    (hline : last.kind ≠ .terminator) :
    ∃ params' body' after, params'.map Param.withoutToken = f.params.map Param.withoutToken ∧
      Block.withoutTokens body' = Block.withoutTokens f.body ∧ after.skipTerminators = last ∧
      function f.isPublic start.next = .ok
        ⟨start.next.index, f.name, f.isPublic, params', f.returnType, 0, none, [], body'⟩
        after := by
  rw [Function.pieces] at hcover
  obtain ⟨close, hinside, hclose⟩ := hcover.exists_of_append
  obtain ⟨brace, hheader, hblock⟩ := hinside.exists_of_append
  obtain ⟨colon, hcall, hreturn⟩ := hheader.exists_of_append
  obtain ⟨paren, hlist, hparen⟩ := hcall.tail.exists_of_append
  obtain ⟨params', hp, hreadp⟩ := paramsFrom_run hparams hlist.tail.tail hparen.kind
  obtain ⟨body', hb, hreadb⟩ := hbody.run hblock.tail hclose
  refine ⟨params', body', close.next, hp, hb, ?_, ?_⟩
  · rw [hclose.tail.skip_lineEnd, hclose.tail.tail.eq_of_nil, Cursor.skipTerminators_of_ne hline]
  · have hopen : expect (.mark .openParen) start.next.next =
        .ok start.next.next.index start.next.next.next := expect_run hlist.tail.kind
    have hskip := hlist.tail.tail.skipTerminators_params hparen.kind
    have hlength : params'.length = f.params.length := by
      simpa using congrArg List.length hp
    have hcolon : colon.kind = .mark .colon := hreturn.kind
    have htypeName : typeName colon.next = .ok f.returnType brace := by
      rw [typeName_run htype hreturn.tail, hreturn.tail.tail.eq_of_nil]
    have hbrace : brace.kind = .mark .openCurly := hblock.kind
    have hparamsRun : paramsFrom (start.next.next.next.remaining + 1) [] start.next.next.next =
        .ok params' colon := by
      rw [← hparen.tail.eq_of_nil]
      exact hreadp _ [] (Nat.lt_succ_of_le hlist.tail.tail.length_le)
    have hbfuel : 4 * ((Block.pieces f.body).length + 1) ≤ brace.next.fuel := by
      have hle := hblock.tail.length_le
      rw [List.length_cons] at hle
      rw [Cursor.fuel]
      omega
    have hblockRun : block brace.next = .ok body' close.next := hreadb _ hbfuel
    rw [function, bind_run (simpleIdentifier_run hlist)]
    simp only
    rw [bind_run (discard_run hopen)]
    simp only [skipTerminators_bind, get_bind, hskip]
    rw [bind_run hparamsRun, if_neg (Nat.not_lt_of_le (hlength ▸ hmany))]
    simp only [get_bind, hcolon, if_true, discard_advance_bind]
    rw [bind_run htypeName]
    simp only [skipTerminators_bind, get_bind,
      Cursor.skipTerminators_of_ne (c := brace) (by rw [hbrace]; decide), hbrace, ne_eq, not_true,
      if_false, discard_advance_bind]
    rw [bind_run hblockRun]
    rfl

/-- The pieces of an item are read as it, but for terminators at the end. -/
theorem item_pieces {i : Item} (h : i.isPrintable = true) {start last : Cursor}
    (hcover : Covers start i.pieces last) (hline : last.kind ≠ .terminator) :
    ∃ i' after, i'.withoutTokens = i.withoutTokens ∧ after.skipTerminators = last ∧
      item start = .ok i' after := by
  cases i with
  | function f =>
    rw [Item.isPrintable, Function.isPrintable] at h
    simp only [Bool.and_eq_true, decide_eq_true_eq, Option.isNone_iff_eq_none, List.isEmpty_iff,
      List.all_eq_true] at h
    obtain ⟨⟨⟨⟨⟨⟨⟨-, hparams⟩, hmany⟩, htype⟩, hindex⟩, hunique⟩, hlocals⟩, hbody⟩ := h
    have htypes : ∀ p ∈ f.params, p.type ∈ ValueType.named := fun p hp =>
      of_decide_eq_true (Bool.and_eq_true_iff.mp (hparams p hp)).2
    have hword : (Piece.keyword .fnKw).shape.kind ≠ .keyword .pubKw := by decide
    obtain ⟨middle, hf, hitem⟩ := item_visibility hword hcover
    obtain ⟨params', body', after, hp, hb, hafter, hrun⟩ :=
      function_run htypes hmany htype (Block.isRead f.body hbody) hf hline
    have hkind : middle.kind = .keyword .fnKw := hf.kind
    refine ⟨.function ⟨middle.next.index, f.name, f.isPublic, params', f.returnType, 0, none, [],
      body'⟩, after, ?_, hafter, ?_⟩
    · simp only [Item.withoutTokens, hp, hb, hindex, hunique, hlocals]
    · rw [hitem, itemFrom]
      simp only [get_bind, hkind, discard_advance_bind]
      rw [bind_run hrun]
      rfl
  | global g =>
    rw [Item.isPrintable] at h
    simp only [Bool.and_eq_true, decide_eq_true_eq, Option.isNone_iff_eq_none] at h
    obtain ⟨⟨-, htype⟩, hunique⟩ := h
    have hword : (Piece.keyword (if g.isMutable then .globalKw else .constKw)).shape.kind ≠
        .keyword .pubKw := by cases g.isMutable <;> decide
    obtain ⟨middle, hg, hitem⟩ := item_visibility hword hcover
    have hkind : middle.kind = .keyword (if g.isMutable then .globalKw else .constKw) := hg.kind
    have hrun := global_run htype hg.tail g.isMutable g.isPublic
    refine ⟨.global ⟨middle.next.index, g.name, g.type, g.isMutable, g.isPublic, none⟩, last, ?_,
      Cursor.skipTerminators_of_ne hline, ?_⟩
    · simp only [Item.withoutTokens, hunique]
    · rw [hitem, itemFrom]
      cases hmutable : g.isMutable with
      | true =>
        rw [hmutable] at hkind hrun
        simp only [get_bind, hkind, if_true, discard_advance_bind]
        exact bind_run hrun _
      | false =>
        rw [hmutable] at hkind hrun
        simp only [get_bind, hkind, Bool.false_eq_true, if_false, discard_advance_bind]
        exact bind_run hrun _
  | imports i =>
    obtain ⟨i', hi', hrun⟩ := imports_run hcover
    have hkind : start.kind = .keyword .importKw := hcover.kind
    refine ⟨.imports i', last, hi', Cursor.skipTerminators_of_ne hline, ?_⟩
    rw [item_of_private (by rw [hkind]; decide), itemFrom]
    simp only [get_bind, hkind, Bool.false_eq_true, if_false]
    exact bind_run hrun _
  | submodule s =>
    have hkind : start.kind = .keyword .modKw := hcover.kind
    refine ⟨.submodule ⟨start.index, s.name⟩, last, rfl, Cursor.skipTerminators_of_ne hline, ?_⟩
    rw [item_of_private (by rw [hkind]; decide), itemFrom]
    simp only [get_bind, hkind, Bool.false_eq_true, if_false]
    exact bind_run (submodule_run hcover) _

theorem item_pieces_ne_nil (i : Item) : i.pieces ≠ [] := by
  cases i <;> simp [Item.pieces, Function.pieces, Global.pieces]

/-- An item does not begin with a terminator. -/
theorem Covers.kind_item {i : Item} {ps : List Piece} {start last : Cursor}
    (hcover : Covers start (i.pieces ++ ps) last) :
    start.kind ≠ .terminator ∧ start.kind ≠ .endOfFile := by
  have hkeyword : ∃ k, start.kind = .keyword k := by
    cases i with
    | function f =>
      cases hpublic : f.isPublic <;> rw [Item.pieces, hpublic] at hcover <;>
        exact ⟨_, hcover.kind⟩
    | global g =>
      cases hpublic : g.isPublic <;> rw [Item.pieces, hpublic] at hcover <;>
        exact ⟨_, hcover.kind⟩
    | imports i => exact ⟨_, hcover.kind⟩
    | submodule s => exact ⟨_, hcover.kind⟩
  obtain ⟨k, hk⟩ := hkeyword
  rw [hk]
  constructor <;> simp

theorem Covers.kind_items {items : List Item} {start last : Cursor}
    (hcover : Covers start (items.flatMap Item.pieces) last) (hlast : last.kind = .endOfFile) :
    start.kind ≠ .terminator := by
  cases items with
  | nil =>
    have hstart : start = last := hcover.eq_of_nil
    rw [hstart, hlast]
    decide
  | cons i items =>
    rw [List.flatMap_cons] at hcover
    exact hcover.kind_item.1

/-- Items are read up to the end of the file. -/
theorem itemsFrom_run {items : List Item} (h : ∀ i ∈ items, i.isPrintable = true)
    {start last : Cursor} (hcover : Covers start (items.flatMap Item.pieces) last)
    (hlast : last.kind = .endOfFile) :
    ∃ items' after, items'.map Item.withoutTokens = items.map Item.withoutTokens ∧
      ∀ fuel done before, before.skipTerminators = start →
        (items.flatMap Item.pieces).length < fuel →
          itemsFrom fuel done before = .ok (done.reverse ++ items') after := by
  induction items generalizing start with
  | nil =>
    have hstart : start = last := hcover.eq_of_nil
    refine ⟨[], last, rfl, fun fuel done before hbefore hfuel => ?_⟩
    obtain ⟨fuel, rfl⟩ := Nat.exists_eq_add_of_le' (show 1 ≤ fuel by omega)
    have htokens : last.hasTokens = false := by simp [Cursor.hasTokens, hlast]
    rw [itemsFrom]
    simp only [skipTerminators_bind, get_bind, hbefore, hstart, htokens, Bool.false_eq_true,
      if_false, pure_run, List.append_nil]
  | cons i items ih =>
    obtain ⟨hi, hitems⟩ := List.forall_mem_cons.mp h
    rw [List.flatMap_cons] at hcover ⊢
    obtain ⟨middle, hfirst, hrest⟩ := hcover.exists_of_append
    obtain ⟨i', after, hi', hafter, hrun⟩ := item_pieces hi hfirst (hrest.kind_items hlast)
    obtain ⟨items', final, hitems', hread⟩ := ih hitems hrest
    refine ⟨i' :: items', final, by rw [List.map_cons, hi', hitems', List.map_cons],
      fun fuel done before hbefore hfuel => ?_⟩
    have hpos : 0 < i.pieces.length := List.length_pos_iff.mpr (item_pieces_ne_nil i)
    have htokens : start.hasTokens = true := decide_eq_true hcover.kind_item.2
    rw [List.length_append] at hfuel
    obtain ⟨fuel, rfl⟩ := Nat.exists_eq_add_of_le' (show 1 ≤ fuel by omega)
    rw [itemsFrom]
    simp only [skipTerminators_bind, get_bind, hbefore, htokens, if_true]
    rw [bind_run hrun, hread fuel _ after hafter (by omega)]
    simp

/-- The tokens that were read from pieces, with one more after them, are covered. -/
theorem covers_of_forall₂ {ps : List Piece} {ts : List Token}
    (h : List.Forall₂ Piece.IsReadAs ps ts) (index : Nat) (eof : Token) :
    ∃ t rest, ts ++ [eof] = t :: rest ∧
      Covers ⟨index, t, rest⟩ ps ⟨index + ts.length, eof, []⟩ := by
  induction h generalizing index with
  | nil => exact ⟨eof, [], rfl, .nil _⟩
  | @cons p t ps ts ht _ ih =>
    obtain ⟨u, rest, heq, hcover⟩ := ih (index + 1)
    refine ⟨t, u :: rest, by rw [List.cons_append, heq], .cons ht ?_⟩
    rw [List.length_cons, ← Nat.add_assoc, Nat.add_right_comm]
    exact hcover

/-- The tokens that were read from the pieces of printable items, and the end of the file after
them, are parsed, and what comes out are these items. -/
theorem items_of_forall₂ {items : List Item} (h : ∀ i ∈ items, i.isPrintable = true)
    {ts : List Token} {eof : Token}
    (hread : List.Forall₂ Piece.IsReadAs (items.flatMap Item.pieces) ts)
    (heof : eof.kind = .endOfFile) :
    ∃ items', Grammar.items (ts ++ [eof]) = .ok items' ∧
      items'.map Item.withoutTokens = items.map Item.withoutTokens := by
  obtain ⟨t, rest, htokens, hcover⟩ := covers_of_forall₂ hread 0 eof
  obtain ⟨items', after, hitems, hrun⟩ := itemsFrom_run h hcover heof
  have hskip := Cursor.skipTerminators_of_ne (hcover.kind_items heof)
  refine ⟨items', ?_, hitems⟩
  rw [Grammar.items, htokens, Cursor.ofTokens?]
  simp only
  rw [hrun _ [] _ hskip (Nat.lt_succ_of_le (Nat.le_succ_of_le hcover.length_le))]
  rfl

end Grammar

/-- The canonical text of a printable module is tokenized and parsed, and what comes out is the
module, but for the indices of its tokens. -/
theorem parse_sourceText (file : String) {items : List Item}
    (h : items.all Item.isPrintable = true) :
    ∃ buffer items', Token.Buffer.scan file (sourceText items) = .ok buffer ∧
      Grammar.items buffer.tokens = .ok items' ∧
      items'.map Item.withoutTokens = items.map Item.withoutTokens := by
  obtain ⟨ts, eof, hscan, hread, heof⟩ := Printing.scan_write file (lineAfter_flatMap_pieces h)
  obtain ⟨items', hrun, hitems⟩ := Grammar.items_of_forall₂ (List.all_eq_true.mp h) hread heof
  exact ⟨_, items', hscan, hrun, hitems⟩

/-- A module with items and statements of every kind. -/
def clampModule : List Item :=
  [.imports ⟨0, ⟨["std", "io"]⟩, [(0, "print"), (0, "flush")]⟩,
    .imports ⟨0, ⟨["math"]⟩, []⟩,
    .submodule ⟨0, "util"⟩,
    .global ⟨0, "limit", .u8, false, true, none⟩,
    .function ⟨0, "clamp", true, [⟨0, "n", .i32⟩, ⟨0, "high", .i32⟩], .i32, 0, none, [],
      [.declare 0 "m" (some .i32) [.var 0 ["n"] none, .op 0 .neg, .int 0 1 .i32, .op 0 .add] none,
        .loop 0 [.var 0 ["m"] none, .int 0 0 .number, .op 0 .gt]
          [.assign 0 ⟨0, ["m"], none⟩ [.var 0 ["m"] none, .int 0 1 .number, .op 0 .sub],
            .cond (.mk 0 [.var 0 ["m"] none, .int 0 3 .number, .op 0 .eq] [.exit 0 1]
              [.cond (.mk 0 [.call 0 ["util", "odd"] 0 []] [.next 0] [] false false)]
              false false)],
        .eval 0 [.cond (.mk 0 [.bool 0 true] [.eval 0 [.int 0 1 .unsigned]]
          [.eval 0 [.var 0 ["n"] none]] false false), .call 0 ["std", "io", "print"] 1 []],
        .ret 0 [.cond (.mk 0 [.var 0 ["n"] none, .var 0 ["high"] none, .op 0 .lt]
          [.eval 0 [.var 0 ["n"] none]] [.eval 0 [.var 0 ["high"] none]] false false)]]⟩]

theorem parse_sourceText_clampModule :
    clampModule.all Item.isPrintable = true ∧
    ∃ buffer items', Token.Buffer.scan "clamp" (sourceText clampModule) = .ok buffer ∧
      Grammar.items buffer.tokens = .ok items' ∧
      items'.map Item.withoutTokens = clampModule.map Item.withoutTokens := by
  have h : clampModule.all Item.isPrintable = true := by decide
  exact ⟨h, parse_sourceText "clamp" h⟩

example : sourceText [.function ⟨0, "f", false, [⟨0, "n", .i32⟩], .bool, 0, none, [],
    [.ret 0 [.var 0 ["n"] none, .op 0 .neg, .int 0 1 .i32, .op 0 .leq]]⟩] =
    "fn f(n: i32): bool \x7b\nreturn ((- n) <= 1i32)\n\x7d\n" := by decide +kernel

end FrontEnd
