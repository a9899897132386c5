import FrontEnd.Proofs.ControlFlow.Items
import FrontEnd.Proofs.ShortCircuit.FixedPoint
import FrontEnd.Proofs.Tree.Items

/-!
# Flattening leaves nothing to lower

Hoisting goes over an expression as a scan does. Each operand on its stack stands for one
that the scan has passed, and has no effect where that had none: a conditional and what
came before it have become temporaries. So the scan of what is left, and of what is
written in front of it, finds no operator to rewrite where the scan of the source found
none.
-/

namespace FrontEnd.ShortCircuit

open ControlFlow ControlFlow.Emit

variable {In Out : Expr → Prop}

/-- An operand that was hoisted: it needs no rewriting, holds no conditional, and has no effect if the
operand of the source had none. -/
structure Operand.IsHoisted (source hoisted : Operand) : Prop where
  scanned : hoisted.Scanned
  isFlat : Expr.IsFlat hoisted.nodes
  effect : hoisted.effect = true → source.effect = true

/-- A flat expression that needs no rewriting, on its own or as an operand. -/
def IsSettled (e : Expr) : Prop := e.IsFlat ∧ ∃ effect, (Operand.mk e effect).Scanned

theorem IsSettled.rewriteOnce {e : Expr} (h : IsSettled e) : rewriteOnce e = none := by
  obtain ⟨-, effect, hscanned⟩ := h
  exact hscanned.rewriteOnce_nodes

/-- The nodes on the stack of a hoist are those of the operands. -/
theorem nodesOnStack_map_nodes (os : List Operand) :
    nodesOnStack (os.map Operand.nodes) = nodesOf os := by
  rw [nodesOnStack, nodesOf, List.map_reverse]

/-- A node makes an operand of its operands for a hoist as it does for a scan. -/
theorem pushNode_map_nodes (os : List Operand) (n : Node) :
    pushNode (os.map Operand.nodes) n =
      (Operand.ofNode n (os.take n.operands) :: os.drop n.operands).map Operand.nodes := by
  rw [pushNode, ← List.map_take, ← List.map_drop, nodesOnStack_map_nodes, List.map_cons]
  rfl

namespace Operand.IsHoisted

variable {source hoisted : Operand} {sources stack : List Operand}

theorem isSettled (h : source.IsHoisted hoisted) : IsSettled hoisted.nodes :=
  ⟨h.isFlat, hoisted.effect, h.scanned⟩

/-- A node without operands and effects stands for any operand. -/
theorem ofLeaf (source : Operand) {n : Node} (hoperands : n.operands = 0)
    (hcond : n.isConditional = false) (heffect : n.hasEffect = false) :
    source.IsHoisted (.ofNode n []) where
  scanned := by
    refine .ofNode (List.forall_mem_nil _) hoperands.symm ?_
    cases n <;> rfl
  isFlat := by
    rw [ofNode, nodesOf, Expr.IsFlat, Expr.containsConditional]
    simpa using hcond
  effect h := by
    rw [ofNode, heffect] at h
    cases h

/-- A temporary stands for any operand. -/
theorem temporary (source : Operand) (token : Nat) (name : String) :
    source.IsHoisted (.ofNode (.var token [name] none) []) :=
  ofLeaf source rfl rfl rfl

theorem any_effect (h : List.Forall₂ IsHoisted sources stack)
    (heffect : stack.any Operand.effect = true) : sources.any Operand.effect = true := by
  induction h with
  | nil => exact heffect
  | cons hr _ ih =>
    rw [List.any_cons, Bool.or_eq_true] at heffect ⊢
    exact heffect.imp hr.effect ih

/-- A node that the scan of the source passes is passed with hoisted operands too. -/
theorem conditional?_eq_none {n : Node} (h : List.Forall₂ IsHoisted sources stack)
    (hn : conditional? n sources = none) : conditional? n stack = none := by
  rw [Option.eq_none_iff_forall_ne_some]
  intro c hc
  obtain ⟨token, o, right, left, rfl, rfl, ho, -⟩ := conditional?_eq_some hc
  cases h with
  | cons hright h =>
    cases h with
    | cons hleft h =>
      cases h
      rename_i sourceRight sourceLeft
      have hsource : sourceRight.effect = false := by simpa [conditional?, ho] using hn
      have hpure : right.effect = false := by
        rw [Bool.eq_false_iff]
        exact fun heffect => Bool.eq_false_iff.mp hsource (hright.effect heffect)
      rw [conditional?, hpure, Bool.and_false, if_neg Bool.false_ne_true] at hc
      cases hc

/-- All hoisted operands have what each has. -/
theorem forall_mem {P : Operand → Prop} (h : List.Forall₂ IsHoisted sources stack)
    (hP : ∀ source hoisted, IsHoisted source hoisted → P hoisted) : ∀ o ∈ stack, P o := by
  intro o ho
  obtain ⟨source, -, hr⟩ := exists_mem_of_forall₂ h ho
  exact hP source o hr

theorem ofNode {n : Node} (h : List.Forall₂ IsHoisted sources stack) (hn : n.isConditional = false)
    (hlength : stack.length = n.operands) (hpassed : conditional? n sources = none) :
    (Operand.ofNode n sources).IsHoisted (.ofNode n stack) where
  scanned := .ofNode (forall_mem h fun _ _ hr => hr.scanned) hlength
    (conditional?_eq_none h hpassed)
  isFlat := by
    have hflat : ∀ e ∈ stack.map Operand.nodes, Expr.IsFlat e :=
      List.forall_mem_map.mpr (forall_mem h fun _ _ hr => hr.isFlat)
    have hpushed := isFlat_pushNode hflat hn
    rw [pushNode_map_nodes, ← hlength, List.take_length] at hpushed
    exact hpushed _ List.mem_cons_self
  effect heffect := by
    rw [Operand.ofNode, Bool.or_eq_true] at heffect ⊢
    exact heffect.imp_right (any_effect h)

/-- What is parked for hoisted operands is hoisted. -/
theorem of_isParked {token : Nat} {parked : List Expr} (h : List.Forall₂ IsHoisted sources stack)
    (hparked : List.Forall₂ (IsParked token) (stack.map Operand.nodes) parked) :
    ∃ stack', parked = stack'.map Operand.nodes ∧ List.Forall₂ IsHoisted sources stack' := by
  induction h generalizing parked with
  | nil =>
    cases hparked
    exact ⟨[], rfl, .nil⟩
  | @cons source hoisted _ _ hr _ ih =>
    obtain ⟨first, rest, hfirst, hrest, rfl⟩ := List.forall₂_cons_left_iff.mp hparked
    obtain ⟨stack', rfl, hstack⟩ := ih hrest
    obtain rfl | ⟨temp, rfl⟩ := hfirst
    · exact ⟨hoisted :: stack', rfl, .cons hr hstack⟩
    · exact ⟨.ofNode (.var token [temp] none) [] :: stack', rfl,
        .cons (temporary source token temp) hstack⟩

end Operand.IsHoisted

open Operand (IsHoisted)

/-- Where the scan of the source passes over all nodes that are left, what is written and what is left
needs no rewriting. -/
theorem writesExprs_hoistFrom {depth : Nat} {nodes : Expr}
    (hc : ∀ c, .cond c ∈ nodes → ∀ tail,
      (flattenConditional depth tail c).WritesExprs IsSettled fun _ => True)
    {sources stack : List Operand} (h : List.Forall₂ IsHoisted sources stack)
    (hscan : rewriteFrom sources nodes = none)
    (hdepth : Expr.depthAfter sources.length nodes = some 1) :
    (hoistFrom depth (stack.map Operand.nodes) nodes).WritesExprs IsSettled IsSettled := by
  induction nodes generalizing sources stack with
  | nil =>
    obtain ⟨source, rfl⟩ := List.length_eq_one_iff.mp (Option.some.inj hdepth)
    obtain ⟨hoisted, rest, hr, hrest, rfl⟩ := List.forall₂_cons_left_iff.mp h
    cases hrest
    rw [hoistFrom, nodesOnStack_map_nodes]
    exact WritesExprs.pure (by simpa [nodesOf] using hr.isSettled)
  | cons n rest ih =>
    have hcrest : ∀ c, .cond c ∈ rest → _ := fun c hm => hc c (List.mem_cons_of_mem _ hm)
    have hoperands : n.operands ≤ sources.length := by
      rw [Expr.depthAfter] at hdepth
      split at hdepth
      · cases hdepth
      · omega
    rw [Expr.depthAfter_cons hoperands] at hdepth
    rw [rewriteFrom_cons, if_neg (Nat.not_lt.mpr hoperands)] at hscan
    split at hscan
    · cases hscan
    next hpassed =>
    have hlength : (Operand.ofNode n (sources.take n.operands) :: sources.drop n.operands).length =
        sources.length - n.operands + 1 := by
      rw [List.length_cons, List.length_drop]
    rw [← hlength] at hdepth
    cases hn : n.isConditional with
    | false =>
      rw [hoistFrom_cons hn, pushNode_map_nodes]
      refine ih hcrest (.cons ?_ (List.forall₂_drop _ h)) hscan hdepth
      refine .ofNode (List.forall₂_take _ h) hn ?_ hpassed
      rw [List.length_take, ← h.length_eq, Nat.min_eq_left hoperands]
    | true =>
      obtain ⟨c, rfl⟩ := exists_cond_of_isConditional hn
      have hsettled : ∀ e ∈ stack.map Operand.nodes, Expr.IsFlat e ∧ IsSettled e :=
        List.forall_mem_map.mpr (IsHoisted.forall_mem h fun _ _ hr => ⟨hr.isFlat, hr.isSettled⟩)
      rw [hoistFrom]
      refine (writesExprs_spill c.token hsettled).bind fun spilled hparked =>
        (writesExprs_reserve c).bind fun temp _ => (hc c List.mem_cons_self _).bind fun _ _ => ?_
      obtain ⟨stack', rfl, hstack⟩ := IsHoisted.of_isParked h hparked
      exact ih hcrest (.cons (.temporary _ c.token temp) hstack) hscan hdepth

theorem hoists_isSettled :
    Hoists (fun e => e.IsComplete ∧ rewriteOnce e = none) IsSettled where
  isFlat h := h.1
  always token := (IsHoisted.ofLeaf (.mk [] false) (n := .bool token true) rfl rfl rfl).isSettled
  negated token h := by
    obtain ⟨hflat, effect, hscanned⟩ := h
    have hnegated := (IsHoisted.ofNode (n := .op token .not) (.cons ⟨hscanned, hflat, id⟩ .nil) rfl
      rfl rfl).isSettled
    simpa [Operand.ofNode, nodesOf] using hnegated
  hoist h _ hc := writesExprs_hoistFrom hc .nil h.2 h.1

/-- A flattened function holds nothing to rewrite if the function held nothing. -/
theorem lowerBlock_flattenFunction {f g : Function} {m m' : Nat} {pre : Block}
    (h : (flattenFunction f).run m = ⟨.ok g, pre, m'⟩)
    (hf : ∀ e ∈ Block.exprs f.body, Expr.IsComplete e ∧ rewriteOnce e = none) :
    lowerBlock g.body = (g.body, 0) := by
  obtain ⟨body, hbody, rfl, -⟩ := run_flattenFunction_eq_ok h
  have hsettled := (hoists_isSettled.writes_flattenBlock 0 f.body hf
    (if f.returnType.isVoid then .drop else .give) m).1
  rw [hbody] at hsettled
  refine lowerBlock_eq_self _ fun e he => ?_
  rw [exprs_markBlock] at he
  exact (hsettled e he).rewriteOnce

theorem lowerItems_of_flattens {items flat : List Item} {m m' : Nat}
    (h : Flattens m items flat m')
    (hi : ∀ i ∈ items, ∀ e ∈ i.exprs, e.IsComplete ∧ rewriteOnce e = none) :
    lowerItems flat = (flat, 0) := by
  induction h with
  | nil => rfl
  | function hf _ ih =>
    rw [List.forall_mem_cons] at hi
    rw [lowerItems, ih hi.2]
    dsimp only
    rw [lowerBlock_flattenFunction hf hi.1]
  | @other _ _ i _ _ hother _ ih =>
    rw [List.forall_mem_cons] at hi
    cases i with
    | function => cases hother
    | global | imports | submodule => rw [lowerItems, ih hi.2]

/-- Lowered items hold nothing more to rewrite. -/
theorem rewriteOnce_lowerItems (items : List Item) :
    ∀ i ∈ (lowerItems items).1, ∀ e ∈ i.exprs, rewriteOnce e = none := by
  induction items with
  | nil => exact List.forall_mem_nil _
  | cons i rest ih =>
    cases i with
    | function f => exact List.forall_mem_cons.mpr ⟨rewriteOnce_lowerBlock f.body, ih⟩
    | global | imports | submodule => exact List.forall_mem_cons.mpr ⟨List.forall_mem_nil _, ih⟩

/-- If a module is lowered and then flattened, there is nothing to lower. -/
theorem lowerItems_normalize {T : Nat → Prop} {items flat : List Item}
    (hitems : ∀ i ∈ items, i.WellFormed T) (h : normalize (lowerItems items).1 = .ok flat) :
    lowerItems flat = (flat, 0) := by
  obtain ⟨n, hflattens⟩ := exists_flattens_of_normalize h
  refine lowerItems_of_flattens hflattens fun i hi e he => ⟨?_, rewriteOnce_lowerItems items i hi e he⟩
  exact (wellFormed_lowerItems hitems i hi).exprs e he

end FrontEnd.ShortCircuit
