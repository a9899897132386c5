import FrontEnd.Proofs.ControlFlow.Returning
import FrontEnd.Proofs.Tree.NeededValues

/-!
# Missing values

Before a conditional whose value is needed is written, it is checked that both of its
blocks give one. All conditionals whose value is needed are met, each with the tail of its
block, unless one before them is refused. So where no exit lacks its loops a value is
reported to be missing just if one of them gives none.
-/

namespace FrontEnd.ControlFlow

open Emit

/-! ## Gaps -/

mutual

theorem statementGap?_eq_none_iff (token : Nat) : ∀ s : Statement,
    statementGap? token s = none ↔ s.givesValue = true
  | .eval .. | .ret .. | .exit .. | .next .. => by
    simp only [statementGap?, Statement.givesValue]
  | .declare .. | .assign .. | .loop .. => by
    simp [statementGap?, Statement.givesValue]
  | .cond (.mk inner _ onTrue onFalse _ _) => by
    rw [statementGap?, Statement.givesValue, Conditional.givesValue, Bool.and_eq_true,
      ← blockGap?_eq_none_iff inner onTrue, ← blockGap?_eq_none_iff inner onFalse]
    cases onFalse with
    | nil => simp [blockGap?]
    | cons s rest => cases blockGap? inner onTrue <;> simp

theorem blockGap?_eq_none_iff (token : Nat) : ∀ b : List Statement,
    blockGap? token b = none ↔ Block.givesValue b = true
  | [] => by simp [blockGap?, Block.givesValue]
  | [s] => by
    rw [blockGap?, Block.givesValue]
    exact statementGap?_eq_none_iff token s
  | s :: s' :: rest => by
    rw [blockGap?, Block.givesValue]
    · exact blockGap?_eq_none_iff token (s' :: rest)
    · nofun

end

/-- No value is missing in a conditional just if both of its blocks give one. -/
theorem conditionalGap?_eq_none_iff (c : Conditional) :
    conditionalGap? c = none ↔ c.givesValue = true := by
  have h := statementGap?_eq_none_iff c.token (.cond c)
  rcases c with ⟨token, condition, onTrue, onFalse, _, _⟩
  rw [statementGap?, Statement.givesValue] at h
  exact h

/-! ## Checks -/

/-- A computation that succeeds if some conditionals all give values, and otherwise reports that one is
missing. -/
def Emit.Checks {α : Type} (cs : List Conditional) (x : Emit α) : Prop :=
  ∀ temps, match (x.run temps).result with
    | .ok _ => ∀ c ∈ cs, c.givesValue = true
    | .error fault => fault.cause = .missingBranchValue ∧ ∃ c ∈ cs, c.givesValue = false

namespace Emit.Checks

variable {α β : Type} {cs cs' : List Conditional}

theorem pure (a : α) : Checks [] (Pure.pure a : Emit α) := fun _ => List.forall_mem_nil _

theorem emit (s : Statement) : Checks [] (Emit.emit s) := fun _ => List.forall_mem_nil _

theorem fresh : Checks [] Emit.fresh := fun _ => List.forall_mem_nil _

theorem bind {x : Emit α} {f : α → Emit β} (h : Checks cs x) (hf : ∀ a, Checks cs' (f a)) :
    Checks (cs ++ cs') (x >>= f) := by
  intro temps
  have hx := h temps
  rcases hr : x.run temps with ⟨fault | a, block, mid⟩
  · rw [hr] at hx
    rw [run_bind_error hr]
    obtain ⟨hcause, c, hc, hgives⟩ := hx
    exact ⟨hcause, c, List.mem_append_left _ hc, hgives⟩
  · rw [hr] at hx
    rw [run_bind_ok hr]
    have ha := hf a mid
    cases hresult : ((f a).run mid).result with
    | ok b =>
      rw [hresult] at ha
      exact List.forall_mem_append.mpr ⟨hx, ha⟩
    | error fault =>
      rw [hresult] at ha
      obtain ⟨hcause, c, hc, hgives⟩ := ha
      exact ⟨hcause, c, List.mem_append_right _ hc, hgives⟩

/-- What checks nothing more can go on after a check. -/
theorem andThen {x : Emit α} {f : α → Emit β} (h : Checks cs x) (hf : ∀ a, Checks [] (f a)) :
    Checks cs (x >>= f) := by
  have hbind := h.bind hf
  rwa [List.append_nil] at hbind

theorem capture {x : Emit Unit} (h : Checks cs x) : Checks cs (Emit.capture x) := by
  intro temps
  have hx := h temps
  rcases hr : x.run temps with ⟨fault | a, block, mid⟩
  · rw [hr] at hx
    rw [run_capture_error hr]
    exact hx
  · rw [hr] at hx
    rw [run_capture_ok hr]
    exact hx

/-- In which order conditionals are checked does not matter to what is found. -/
theorem perm {x : Emit α} (h : Checks cs x) (hperm : cs.Perm cs') : Checks cs' x := by
  intro temps
  have hx := h temps
  cases hr : (x.run temps).result with
  | ok a =>
    rw [hr] at hx
    exact fun c hc => hx c (hperm.mem_iff.mpr hc)
  | error fault =>
    rw [hr] at hx
    obtain ⟨hcause, c, hc, hgives⟩ := hx
    exact ⟨hcause, c, hperm.mem_iff.mp hc, hgives⟩

end Emit.Checks

theorem checks_reserve (c : Conditional) : (reserve c).Checks [c] := by
  intro temps
  rw [reserve, run_bind_ok (run_fresh temps), run_bind_ok (run_emit _ _)]
  cases hgap : conditionalGap? c with
  | none => exact List.forall_mem_singleton.mpr ((conditionalGap?_eq_none_iff c).mp hgap)
  | some gap =>
    refine ⟨rfl, c, List.mem_singleton_self c, Bool.eq_false_iff.mpr fun hgives => ?_⟩
    rw [(conditionalGap?_eq_none_iff c).mpr hgives] at hgap
    cases hgap

theorem checks_park (token : Nat) (operand : Expr) : (park token operand).Checks [] := by
  rcases park_cases token operand with ⟨n, -, -, hp⟩ | hp
  · rw [hp]
    exact Checks.pure _
  · rw [hp]
    exact Checks.fresh.andThen fun _ => (Checks.emit _).andThen fun _ => Checks.pure _

theorem checks_spill (token : Nat) (operands : List Expr) : (spill token operands).Checks [] := by
  induction operands with
  | nil => exact Checks.pure _
  | cons operand below ih =>
    exact ih.andThen fun _ => (checks_park token operand).andThen fun _ => Checks.pure _

/-- Whether the tail does something with a value. -/
def Tail.wants : Tail → Bool
  | drop => false
  | store _ | give => true

/-- A conditional is written if those in it whose values are needed give values. -/
def ConditionalChecks (depth : Nat) (c : Conditional) : Prop :=
  ∀ tail, (flattenConditional depth tail c).Checks (c.needed tail.wants)

theorem checks_hoistFrom {depth : Nat} {nodes : Expr}
    (hc : ∀ c, .cond c ∈ nodes → ConditionalChecks depth c) (operands : List Expr) :
    (hoistFrom depth operands nodes).Checks (Expr.needed nodes) := by
  induction nodes generalizing operands with
  | nil =>
    rw [hoistFrom, Expr.needed]
    exact Checks.pure _
  | cons n rest ih =>
    have hr := ih fun c hm => hc c (List.mem_cons_of_mem _ hm)
    cases hn : n.isConditional with
    | false =>
      rw [hoistFrom_cons hn, Expr.needed_cons hn]
      exact hr _
    | true =>
      obtain ⟨c, rfl⟩ := exists_cond_of_isConditional hn
      rw [hoistFrom, Expr.needed]
      exact (checks_spill c.token operands).bind fun _ => (checks_reserve c).bind fun temp =>
        (hc c List.mem_cons_self (.store temp)).bind fun _ => hr _

theorem checks_emit_hoist {depth : Nat} {value : Expr}
    (hc : ∀ c, .cond c ∈ value → ConditionalChecks depth c) (make : Expr → Statement) :
    (do emit (make (← hoistFrom depth [] value)) : Emit Unit).Checks (Expr.needed value) :=
  (checks_hoistFrom hc []).andThen fun _ => Checks.emit _

theorem checks_eval {depth : Nat} {value : Expr}
    (hc : ∀ c, .cond c ∈ value → ConditionalChecks depth c) (token : Nat) (tail : Tail) :
    (flattenStatement depth tail (.eval token value)).Checks
      ((Statement.eval token value).needed tail.wants) := by
  by_cases hdrop : ∃ c, tail = .drop ∧ value = [.cond c]
  · obtain ⟨c, rfl, rfl⟩ := hdrop
    rw [flattenStatement, Tail.wants, Statement.needed]
    exact hc c List.mem_cons_self .drop
  · rw [flattenStatement_eval fun c ht hv => hdrop ⟨c, ht, hv⟩, Statement.needed]
    · exact checks_emit_hoist hc _
    · rintro c hwants rfl
      cases tail with
      | drop => exact hdrop ⟨c, rfl, rfl⟩
      | store | give => cases hwants

mutual

theorem checks_conditionals : ∀ (nodes : List Node) (loops : List Nat),
    (∀ x ∈ Expr.exits .own loops nodes, x.IsBound) → ∀ c, .cond c ∈ nodes →
      ConditionalChecks loops.length c
  | .cond c :: rest, loops, hbound, c', hc => by
    rw [Expr.exits_cons, List.forall_mem_append, Node.exits] at hbound
    rcases List.mem_cons.mp hc with heq | hr
    · cases heq
      exact checks_flattenConditional c loops hbound.1
    · exact checks_conditionals rest loops hbound.2 c' hr
  | .int .. :: rest, loops, hbound, c', hc | .float .. :: rest, loops, hbound, c', hc
  | .bool .. :: rest, loops, hbound, c', hc | .var .. :: rest, loops, hbound, c', hc
  | .op .. :: rest, loops, hbound, c', hc | .call .. :: rest, loops, hbound, c', hc => by
    rw [Expr.exits_cons, List.forall_mem_append] at hbound
    exact checks_conditionals rest loops hbound.2 c' (by simpa using hc)

theorem checks_flattenConditional : ∀ (c : Conditional) (loops : List Nat),
    (∀ x ∈ c.exits .own loops, x.IsBound) → ConditionalChecks loops.length c
  | .mk _ condition onTrue onFalse _ _, loops, hbound, tail => by
    rw [Conditional.exits, List.forall_mem_append, List.forall_mem_append] at hbound
    obtain ⟨⟨hcondition, htrue⟩, hfalse⟩ := hbound
    rw [flattenConditional, Conditional.needed, List.append_assoc]
    exact (checks_hoistFrom (checks_conditionals condition loops hcondition) []).bind fun _ =>
      (checks_flattenBlock onTrue loops htrue tail).capture.bind fun _ =>
        (checks_flattenBlock onFalse loops hfalse tail).capture.andThen fun _ => Checks.emit _

theorem checks_flattenStatement : ∀ (s : Statement) (loops : List Nat),
    (∀ x ∈ s.exits .own loops, x.IsBound) → ∀ tail,
      (flattenStatement loops.length tail s).Checks (s.needed tail.wants)
  | .declare _ _ _ value _, loops, hbound, tail | .assign _ _ value, loops, hbound, tail
  | .ret _ value, loops, hbound, tail => by
    rw [Statement.exits] at hbound
    rw [flattenStatement, Statement.needed]
    exact checks_emit_hoist (checks_conditionals value loops hbound) _
  | .eval token value, loops, hbound, tail => by
    rw [Statement.exits] at hbound
    exact checks_eval (checks_conditionals value loops hbound) token tail
  | .cond c, loops, hbound, tail => by
    rw [Statement.exits] at hbound
    rw [flattenStatement, Statement.needed]
    exact checks_flattenConditional c loops hbound tail
  | .loop token condition body, loops, hbound, tail => by
    rw [Statement.exits, ExitRule.own, List.nil_append, List.forall_mem_append] at hbound
    have hcondition := checks_conditionals condition (token :: loops) hbound.1
    have hbody := checks_flattenBlock body (token :: loops) hbound.2 .drop
    rw [flattenStatement, Statement.needed]
    -- the body is checked before the condition
    refine Checks.perm (hbody.capture.bind fun body' => ?_) List.perm_append_comm
    split
    · exact (checks_emit_hoist hcondition (exitUnless token)).capture.andThen fun _ => Checks.emit _
    · next hplain =>
      rw [Expr.needed_of_not_containsConditional (Bool.eq_false_iff.mpr hplain)]
      exact Checks.emit _
  | .exit token amount, loops, hbound, tail => by
    rw [Statement.exits, ExitRule.own, List.forall_mem_singleton] at hbound
    obtain ⟨hleast, hmost⟩ : 1 ≤ amount ∧ amount ≤ loops.length := hbound
    rw [flattenStatement, Statement.needed, if_neg (by omega)]
    exact Checks.emit _
  | .next token, loops, hbound, tail => by
    rw [Statement.exits, ExitRule.own, List.forall_mem_singleton] at hbound
    have hloops : loops ≠ [] := hbound
    rw [flattenStatement, Statement.needed, if_neg (by simpa using hloops)]
    exact Checks.emit _

/-- Where all exits have their loops, a block is written just if all conditionals in it whose values are
needed give values. -/
theorem checks_flattenBlock : ∀ (b : List Statement) (loops : List Nat),
    (∀ x ∈ Block.exits .own loops b, x.IsBound) → ∀ tail,
      (flattenBlock loops.length tail b).Checks (Block.needed tail.wants b)
  | [], loops, _, tail => by
    rw [flattenBlock, Block.needed]
    exact Checks.pure _
  | s :: rest, loops, hbound, tail => by
    rw [Block.exits_cons, List.forall_mem_append] at hbound
    have hs := checks_flattenStatement s loops hbound.1 (if rest.isEmpty then tail else .drop)
    have hwants : (if rest.isEmpty then tail else Tail.drop).wants = (tail.wants && rest.isEmpty) := by
      cases rest.isEmpty <;> simp [Tail.wants]
    rw [hwants] at hs
    rw [flattenBlock, Block.needed]
    exact hs.bind fun _ => checks_flattenBlock rest loops hbound.2 tail

end

/-- **A value is reported to be missing just where one is needed and not given.** Let all exits of a
function have their loops. It is refused because a branch has no value just if there is a conditional
in it, in an expression at any depth, whose value is needed and of which some block gives none. -/
theorem flattenFunction_missingBranchValue_iff {f : Function}
    (hbound : ∀ x ∈ Block.loopExits [] f.body, x.IsBound) (m : Nat) :
    (∃ token, ((flattenFunction f).run m).result = .error ⟨token, .missingBranchValue⟩) ↔
      ∃ c ∈ f.neededConditionals, c.givesValue = false := by
  have hchecks := checks_flattenBlock f.body [] hbound (if f.returnType.isVoid then .drop else .give) m
  have hwants : (if f.returnType.isVoid then Tail.drop else .give).wants = !f.returnType.isVoid := by
    cases f.returnType.isVoid <;> rfl
  rw [hwants, List.length_nil] at hchecks
  rcases hr : (flattenBlock 0 (if f.returnType.isVoid then .drop else .give) f.body).run m with
    ⟨⟨token, cause⟩ | _, body, m'⟩
  · rw [hr] at hchecks
    obtain ⟨hcause, hmissing⟩ := hchecks
    have hcause : cause = .missingBranchValue := hcause
    refine iff_of_true ⟨token, ?_⟩ hmissing
    rw [flattenFunction, run_bind_error (run_capture_error hr), hcause]
  · rw [hr] at hchecks
    refine iff_of_false ?_ ?_
    · rintro ⟨token, hresult⟩
      rw [result_flattenFunction hr] at hresult
      split at hresult <;> cases hresult
    · rintro ⟨c, hc, hgives⟩
      rw [hchecks c hc] at hgives
      cases hgives

/-- `if a { g() }` as a statement needs no value at the end of a function that returns none. If the
function returns one it does, also at the end of a block of a last conditional. -/
theorem flattenFunction_missingBranchValue_atEnd :
    let bare : Statement :=
      .eval 1 [.cond (.ofBlocks 1 [.var 2 ["a"] none] [.eval 3 [.call 3 ["g"] 0 []]] [])]
    let f : Function :=
      { token := 0, name := "f", isPublic := false, params := [], returnType := .void, index := 0,
        uniqueName := none, locals := [], body := [bare] }
    let inner : Function :=
      { f with
        returnType := .bool
        body := [.cond (.ofBlocks 4 [.var 5 ["b"] none] [bare] [.ret 6 [.bool 6 true]])] }
    (∀ x ∈ Block.loopExits [] f.body, x.IsBound) ∧
    (¬ ∃ token, ((flattenFunction f).run 0).result = .error ⟨token, .missingBranchValue⟩) ∧
    (∀ x ∈ Block.loopExits [] inner.body, x.IsBound) ∧
    (∃ c ∈ inner.neededConditionals, c.givesValue = false) ∧
    ∃ token, ((flattenFunction inner).run 0).result = .error ⟨token, .missingBranchValue⟩ := by
  intro bare f inner
  have hf : ∀ x ∈ Block.loopExits [] f.body, x.IsBound := by decide
  have hinner : ∀ x ∈ Block.loopExits [] inner.body, x.IsBound := by decide
  have hneeded : ∃ c ∈ inner.neededConditionals, c.givesValue = false :=
    ⟨_, List.mem_cons_self, rfl⟩
  refine ⟨hf, fun h => ?_, hinner, hneeded,
    (flattenFunction_missingBranchValue_iff hinner 0).mpr hneeded⟩
  obtain ⟨c, hc, -⟩ := (flattenFunction_missingBranchValue_iff hf 0).mp h
  cases hc

end FrontEnd.ControlFlow
