import FrontEnd.Proofs.ControlFlow.Returning
import FrontEnd.Proofs.ShortCircuit.Flattening

/-!
# Flattening what is flat

A block is left as it is if its expressions hold no conditional, its exits have their
loops, and no value stands at its end or else is dropped. A flattened block is such a
block: where a value was to be stored or returned, no value is left at the end. Marks do
not matter, and marking twice is as good as once.
-/

namespace FrontEnd

mutual

/-- Whether the statement gives the block that it ends a value. -/
def Statement.endsInValue : Statement → Bool
  | .eval .. => true
  | .cond c => c.endsInValue
  | .declare .. | .assign .. | .ret .. | .loop .. | .exit .. | .next .. => false

/-- Whether a block of the conditional ends in a value. -/
def Conditional.endsInValue : Conditional → Bool
  | .mk _ _ onTrue onFalse _ _ => Block.endsInValue onTrue || Block.endsInValue onFalse

/-- Whether a value stands at the end of the block, on its own or in a block of a conditional there. -/
def Block.endsInValue : List Statement → Bool
  | [] => false
  | s :: rest => if rest.isEmpty then s.endsInValue else Block.endsInValue rest

end

/-- Only what comes last in a block can be its value. -/
theorem Block.endsInValue_append (b : Block) (s : Statement) :
    Block.endsInValue (b ++ [s]) = s.endsInValue := by
  induction b with
  | nil => rw [List.nil_append, Block.endsInValue, List.isEmpty_nil, if_pos rfl]
  | cons s' rest ih =>
    rw [List.cons_append, Block.endsInValue, if_neg (by simp), ih]

namespace ControlFlow

open Emit

/-! ## Marks -/

mutual

theorem markStatement_markStatement : ∀ s : Statement,
    markStatement (markStatement s).1 = markStatement s
  | .cond c => by
    rw [markStatement, markStatement, markConditional_markConditional c]
  | .loop _ _ body => by
    rw [markStatement, markStatement, markBlock_markBlock body]
  | .declare .. | .assign .. | .eval .. | .ret .. | .exit .. | .next .. => rfl

theorem markConditional_markConditional : ∀ c : Conditional,
    markConditional (markConditional c).1 = markConditional c
  | .mk _ _ onTrue onFalse _ _ => by
    simp only [markConditional, markBlock_markBlock onTrue, markBlock_markBlock onFalse]

/-- A block that has been marked is marked with the same marks. -/
theorem markBlock_markBlock : ∀ b : List Statement, markBlock (markBlock b).1 = markBlock b
  | [] => by rw [markBlock, markBlock]
  | s :: rest => by
    simp only [markBlock, markStatement_markStatement s, markBlock_markBlock rest]

end

mutual

theorem endsInValue_markStatement : ∀ s : Statement,
    (markStatement s).1.endsInValue = s.endsInValue
  | .cond c => by
    rw [markStatement, Statement.endsInValue, Statement.endsInValue]
    exact endsInValue_markConditional c
  | .loop .. => by
    rw [markStatement, Statement.endsInValue, Statement.endsInValue]
  | .declare .. | .assign .. | .eval .. | .ret .. | .exit .. | .next .. => rfl

theorem endsInValue_markConditional : ∀ c : Conditional,
    (markConditional c).1.endsInValue = c.endsInValue
  | .mk _ _ onTrue onFalse _ _ => by
    rw [markConditional, Conditional.endsInValue, Conditional.endsInValue,
      endsInValue_markBlock onTrue, endsInValue_markBlock onFalse]

theorem endsInValue_markBlock : ∀ b : List Statement,
    Block.endsInValue (markBlock b).1 = Block.endsInValue b
  | [] => by rw [markBlock]
  | [s] => by
    rw [markBlock, markBlock, Block.endsInValue, Block.endsInValue, endsInValue_markStatement s]
    rfl
  | s :: s' :: rest => by
    have hrest := endsInValue_markBlock (s' :: rest)
    rw [markBlock] at hrest ⊢
    rw [Block.endsInValue, Block.endsInValue]
    exact hrest

end

/-! ## What is flat is left as it is -/

/-- A statement whose own expression is flat is written as it is. -/
theorem run_emit_hoist {e : Expr} (h : e.IsFlat) (make : Expr → Statement) (depth temps : Nat) :
    (do emit (make (← hoistFrom depth [] e)) : Emit Unit).run temps =
      ⟨.ok (), [make e], temps⟩ := by
  rw [hoistFrom_of_isFlat h]
  rfl

/-- The tail does nothing to a block that ends as it does. -/
def Tail.Passes (tail : Tail) (endsInValue : Bool) : Prop := tail = .drop ∨ endsInValue = false

mutual

theorem run_flattenConditional_of_isPlain : ∀ (c : Conditional) (loops : List Nat) (tail : Tail),
    (∀ e ∈ c.exprs, Expr.IsFlat e) → (∀ x ∈ c.exits .own loops, x.IsBound) →
    tail.Passes c.endsInValue → ∀ temps,
      (flattenConditional loops.length tail c).run temps = ⟨.ok (), [.cond c], temps⟩
  | .mk token condition onTrue onFalse _ _, loops, tail, hplain, hbound, hpasses, temps => by
    rw [Conditional.exprs, List.forall_mem_append, List.forall_mem_append, List.forall_mem_cons]
      at hplain
    rw [Conditional.exits, List.forall_mem_append, List.forall_mem_append] at hbound
    rw [Tail.Passes, Conditional.endsInValue, Bool.or_eq_false_iff] at hpasses
    have htrue := run_flattenBlock_of_isPlain onTrue loops tail hplain.1.2 hbound.1.2
      (hpasses.imp_right And.left) temps
    have hfalse := run_flattenBlock_of_isPlain onFalse loops tail hplain.2 hbound.2
      (hpasses.imp_right And.right) temps
    rw [flattenConditional, hoistFrom_of_isFlat hplain.1.1.1, pure_bind,
      run_bind_ok (run_capture_ok htrue), run_bind_ok (run_capture_ok hfalse)]
    rfl

theorem run_flattenStatement_of_isPlain : ∀ (s : Statement) (loops : List Nat) (tail : Tail),
    (∀ e ∈ s.exprs, Expr.IsFlat e) → (∀ x ∈ s.exits .own loops, x.IsBound) →
    tail.Passes s.endsInValue → ∀ temps,
      (flattenStatement loops.length tail s).run temps = ⟨.ok (), [s], temps⟩
  | .declare _ _ _ value _, loops, tail, hplain, _, _, temps => by
    rw [Statement.exprs] at hplain
    rw [flattenStatement]
    exact run_emit_hoist (.of_value hplain) _ _ _
  | .ret _ value, loops, tail, hplain, _, _, temps => by
    rw [Statement.exprs] at hplain
    rw [flattenStatement]
    exact run_emit_hoist (.of_value hplain) _ _ _
  | .assign _ _ value, loops, tail, hplain, _, _, temps => by
    rw [Statement.exprs, List.forall_mem_cons] at hplain
    rw [flattenStatement]
    exact run_emit_hoist hplain.1 _ _ _
  | .eval token value, loops, tail, hplain, _, hpasses, temps => by
    rw [Statement.exprs, List.forall_mem_cons] at hplain
    obtain rfl | hends := hpasses
    · have hflat := hplain.1
      rw [flattenStatement_eval]
      · exact run_emit_hoist hflat _ _ _
      · rintro c - rfl
        cases hflat
    · cases hends
  | .cond c, loops, tail, hplain, hbound, hpasses, temps => by
    rw [flattenStatement]
    exact run_flattenConditional_of_isPlain c loops tail hplain hbound hpasses temps
  | .loop token condition body, loops, tail, hplain, hbound, _, temps => by
    rw [Statement.exprs, List.forall_mem_append, List.forall_mem_cons] at hplain
    rw [Statement.exits, List.forall_mem_append] at hbound
    have hbody := run_flattenBlock_of_isPlain body (token :: loops) .drop hplain.2 hbound.2
      (.inl rfl) temps
    have hcondition : Expr.containsConditional condition = false := hplain.1.1
    rw [flattenStatement]
    rw [List.length_cons] at hbody
    rw [run_bind_ok (run_capture_ok hbody), if_neg (by rw [hcondition]; exact Bool.false_ne_true)]
    rfl
  | .exit token amount, loops, tail, _, hbound, _, temps => by
    rw [Statement.exits, ExitRule.own, List.forall_mem_singleton] at hbound
    obtain ⟨hleast, hmost⟩ : 1 ≤ amount ∧ amount ≤ loops.length := hbound
    rw [flattenStatement, if_neg (by omega)]
    rfl
  | .next token, loops, tail, _, hbound, _, temps => by
    rw [Statement.exits, ExitRule.own, List.forall_mem_singleton] at hbound
    have hloops : loops ≠ [] := hbound
    rw [flattenStatement, if_neg (by simpa using hloops)]
    rfl

/-- A block without conditionals in its expressions is written as it is, if all its exits have their
loops and the tail does nothing to its end. -/
theorem run_flattenBlock_of_isPlain : ∀ (b : List Statement) (loops : List Nat) (tail : Tail),
    Block.IsPlain b → (∀ x ∈ Block.loopExits loops b, x.IsBound) →
    tail.Passes (Block.endsInValue b) → ∀ temps,
      (flattenBlock loops.length tail b).run temps = ⟨.ok (), b, temps⟩
  | [], loops, tail, _, _, _, temps => by
    rw [flattenBlock]
    rfl
  | [s], loops, tail, hplain, hbound, hpasses, temps => by
    rw [Block.IsPlain, Block.exprs, List.forall_mem_append] at hplain
    rw [Block.loopExits, Block.exits_cons, List.forall_mem_append] at hbound
    have hs := run_flattenStatement_of_isPlain s loops tail hplain.1 hbound.1 hpasses temps
    rw [flattenBlock, flattenBlock, List.isEmpty_nil, if_pos rfl, run_bind_ok hs]
    rfl
  | s :: s' :: rest, loops, tail, hplain, hbound, hpasses, temps => by
    rw [Block.IsPlain, Block.exprs, List.forall_mem_append] at hplain
    rw [Block.loopExits, Block.exits_cons, List.forall_mem_append] at hbound
    have hs := run_flattenStatement_of_isPlain s loops .drop hplain.1 hbound.1 (.inl rfl) temps
    have hrest := run_flattenBlock_of_isPlain (s' :: rest) loops tail hplain.2 hbound.2 hpasses temps
    rw [flattenBlock, List.isEmpty_cons, if_neg Bool.false_ne_true, run_bind_ok hs, hrest]
    rfl

end

/-! ## What has been flattened is flat -/

/-- There is a last statement, and it gives the block no value. -/
def EndsBare (b : Block) : Prop := ∃ before last, b = before ++ [last] ∧ last.endsInValue = false

theorem EndsBare.prepend {b : Block} (h : EndsBare b) (first : Block) : EndsBare (first ++ b) := by
  obtain ⟨before, last, rfl, hlast⟩ := h
  exact ⟨first ++ before, last, (List.append_assoc _ _ _).symm, hlast⟩

theorem endsInValue_of_endsBare {b b' : Block} (h : b ≠ [] → EndsBare b') (hnil : b = [] → b' = []) :
    Block.endsInValue b' = false := by
  by_cases hb : b = []
  · rw [hnil hb]
    rfl
  · obtain ⟨before, last, rfl, hlast⟩ := h hb
    rw [Block.endsInValue_append, hlast]

theorem endsBare_emit {x : Emit Expr} {make : Expr → Statement}
    (hmake : ∀ e, (make e).endsInValue = false) {b : Block} {m m' : Nat}
    (h : (do emit (make (← x)) : Emit Unit).run m = ⟨.ok (), b, m'⟩) : EndsBare b := by
  obtain ⟨e, before, mid, after, -, hemit, rfl⟩ := run_bind_eq_ok h
  cases hemit
  exact ⟨before, make e, rfl, hmake e⟩

theorem eq_nil_of_flattenBlock {b b' : Block} {depth m m' : Nat} {tail : Tail}
    (h : (flattenBlock depth tail b).run m = ⟨.ok (), b', m'⟩) (hb : b = []) : b' = [] := by
  subst hb
  rw [flattenBlock] at h
  cases h
  rfl

mutual

theorem endsBare_flattenConditional : ∀ (c : Conditional) {depth m m' : Nat} {tail : Tail}
    {b : Block}, tail ≠ .drop → (flattenConditional depth tail c).run m = ⟨.ok (), b, m'⟩ →
    EndsBare b
  | .mk token _ onTrue onFalse trueReturns falseReturns, depth, m, m', tail, b, htail, h => by
    rw [flattenConditional] at h
    obtain ⟨e, before, m₁, more, -, hcapture, rfl⟩ := run_bind_eq_ok h
    obtain ⟨onTrue', m₂, htrue, hcapture⟩ := run_capture_bind_eq_ok hcapture
    obtain ⟨onFalse', m₃, hfalse, hemit⟩ := run_capture_bind_eq_ok hcapture
    cases hemit
    refine ⟨before, _, rfl, ?_⟩
    rw [Statement.endsInValue, Conditional.endsInValue,
      endsInValue_of_endsBare (endsBare_flattenBlock onTrue htail htrue) (eq_nil_of_flattenBlock htrue),
      endsInValue_of_endsBare (endsBare_flattenBlock onFalse htail hfalse)
        (eq_nil_of_flattenBlock hfalse)]
    rfl

theorem endsBare_flattenStatement : ∀ (s : Statement) {depth m m' : Nat} {tail : Tail}
    {b : Block}, tail ≠ .drop → (flattenStatement depth tail s).run m = ⟨.ok (), b, m'⟩ →
    EndsBare b
  | .declare .., depth, m, m', tail, b, _, h | .assign .., depth, m, m', tail, b, _, h
  | .ret .., depth, m, m', tail, b, _, h => by
    rw [flattenStatement] at h
    exact endsBare_emit (fun _ => rfl) h
  | .eval token value, depth, m, m', tail, b, htail, h => by
    rw [flattenStatement_eval fun _ hdrop _ => htail hdrop] at h
    refine endsBare_emit (fun e => ?_) h
    cases tail with
    | drop => exact absurd rfl htail
    | store | give => rfl
  | .cond c, depth, m, m', tail, b, htail, h => by
    rw [flattenStatement] at h
    exact endsBare_flattenConditional c htail h
  | .loop token condition body, depth, m, m', tail, b, _, h => by
    rw [flattenStatement] at h
    obtain ⟨body', m₁, -, hrest⟩ := run_capture_bind_eq_ok h
    split at hrest
    · obtain ⟨test, m₂, -, hemit⟩ := run_capture_bind_eq_ok hrest
      cases hemit
      exact ⟨[], _, rfl, rfl⟩
    · cases hrest
      exact ⟨[], _, rfl, rfl⟩
  | .exit .., depth, m, m', tail, b, _, h | .next .., depth, m, m', tail, b, _, h => by
    rw [flattenStatement] at h
    split at h
    · cases h
    · cases h
      exact ⟨[], _, rfl, rfl⟩

/-- A tail that does something with the value of a block leaves none at its end. -/
theorem endsBare_flattenBlock : ∀ (b : List Statement) {depth m m' : Nat} {tail : Tail}
    {b' : Block}, tail ≠ .drop → (flattenBlock depth tail b).run m = ⟨.ok (), b', m'⟩ →
    b ≠ [] → EndsBare b'
  | [], depth, m, m', tail, b', _, _, hne => absurd rfl hne
  | [s], depth, m, m', tail, b', htail, h, _ => by
    rw [flattenBlock, flattenBlock, bind_pure_unit] at h
    exact endsBare_flattenStatement s htail h
  | s :: s' :: rest, depth, m, m', tail, b', htail, h, _ => by
    rw [flattenBlock] at h
    obtain ⟨_, first, mid, more, -, hrest, rfl⟩ := run_bind_eq_ok h
    exact (endsBare_flattenBlock (s' :: rest) htail hrest (List.cons_ne_nil _ _)).prepend first

end

/-! ## Functions and modules -/

/-- A flattened body ends in no value that the function would have to return. -/
theorem passes_flattenBlock {returnType : ValueType} {b body : Block} {m m' : Nat}
    (h : (flattenBlock 0 (if returnType.isVoid then .drop else .give) b).run m =
      ⟨.ok (), body, m'⟩) :
    (if returnType.isVoid then Tail.drop else .give).Passes (Block.endsInValue body) := by
  by_cases hvoid : returnType.isVoid = true
  · exact .inl (if_pos hvoid)
  · rw [if_neg hvoid] at h ⊢
    have hgive : Tail.give ≠ .drop := nofun
    exact .inr (endsInValue_of_endsBare (endsBare_flattenBlock b hgive h) (eq_nil_of_flattenBlock h))

/-- A function that was flattened is left as it is. -/
theorem run_flattenFunction_flattened {f g : Function} {m m' : Nat} {pre : Block}
    (h : (flattenFunction f).run m = ⟨.ok g, pre, m'⟩) (n : Nat) :
    (flattenFunction g).run n = ⟨.ok g, [], n⟩ := by
  have hplain := isPlain_flattenFunction h
  obtain ⟨body, hbody, rfl, hreturns⟩ := run_flattenFunction_eq_ok h
  have hpasses := passes_flattenBlock hbody
  rw [← endsInValue_markBlock] at hpasses
  have hagain := run_flattenBlock_of_isPlain (markBlock body).1 [] _ hplain
    (isBound_markBlock hbody) hpasses n
  rw [List.length_nil] at hagain
  rw [flattenFunction, run_bind_ok (run_capture_ok hagain)]
  dsimp only
  have haccepted : (f.returnType.isVoid || (markBlock body).2) = true := by
    cases hvoid : f.returnType.isVoid with
    | true => rfl
    | false => exact hreturns hvoid
  rw [markBlock_markBlock, if_pos haccepted]
  rfl

/-- The functions of a module that was flattened are left as they are, and no temporary is handed out. -/
theorem Flattens.run_flattenItems {items flat : List Item} {m m' : Nat}
    (h : Flattens m items flat m') (n : Nat) : (flattenItems flat).run n = ⟨.ok flat, [], n⟩ := by
  induction h with
  | nil => rfl
  | function hf _ ih =>
    rw [flattenItems, run_bind_ok (run_flattenFunction_flattened hf n), run_bind_ok ih]
    rfl
  | @other _ _ i _ _ hother _ ih =>
    cases i with
    | function => cases hother
    | global | imports | submodule => exact run_bind_ok ih _

/-- **Flattening is idempotent.** A module that was flattened is accepted again and left as it is, with
all its marks, and no temporary is handed out, however many there are. If the module had been lowered
before, there is nothing to lower in what it was flattened to. Its expressions must be complete, as
those of a text are: an incomplete one hides what is behind it from the scan for operators. -/
theorem normalize_idempotent {items flat : List Item} (h : normalize items = .ok flat) :
    (∀ n, (flattenItems flat).run n = ⟨.ok flat, [], n⟩) ∧ normalize flat = .ok flat ∧
    ∀ (T : Nat → Prop) (source : List Item), (∀ i ∈ source, i.WellFormed T) →
      items = (ShortCircuit.lowerItems source).1 → ShortCircuit.lowerItems flat = (flat, 0) := by
  obtain ⟨m, hflattens⟩ := exists_flattens_of_normalize h
  refine ⟨hflattens.run_flattenItems, ?_, ?_⟩
  · rw [normalize, hflattens.run_flattenItems 0]
  · rintro T source hsource rfl
    exact ShortCircuit.lowerItems_normalize hsource h

/-- A loop whose condition is a conditional, and `a && g()` at the end: the loop gets an exit in its
body and the operator becomes a conditional that returns, and both stay so. -/
theorem normalize_idempotent_loop :
    let condition : Conditional := .ofBlocks 2 [.var 3 ["a"] none] [.eval 4 [.bool 4 true]]
      [.eval 5 [.call 5 ["g"] 0 []]]
    let f : Function :=
      { token := 0, name := "f", isPublic := false, params := [], returnType := .bool, index := 0,
        uniqueName := none, locals := [],
        body := [.loop 1 [.cond condition] [.next 6],
          .eval 7 [.var 7 ["a"] none, .call 8 ["g"] 0 [], .op 9 .and]] }
    let items := (ShortCircuit.lowerItems [.function f]).1
    ∃ flat, normalize items = .ok flat ∧ (∀ i ∈ [Item.function f], i.WellFormed fun _ => True) ∧
      (ShortCircuit.lowerItems [.function f]).2 = 1 ∧
      (functionsOf flat).map (fun g => g.body.map Statement.token) = [[1, 9, 9, 7]] ∧
      (∀ n, (flattenItems flat).run n = ⟨.ok flat, [], n⟩) ∧
      ShortCircuit.lowerItems flat = (flat, 0) := by
  intro condition f items
  have hcondition : condition.WellFormed fun _ => True :=
    ⟨trivial, ⟨by decide, trivial, trivial⟩, ⟨⟨trivial, by decide, trivial, trivial⟩, trivial⟩,
      ⟨⟨trivial, by decide, trivial, trivial⟩, trivial⟩⟩
  have hwell : ∀ i ∈ [Item.function f], i.WellFormed fun _ => True :=
    List.forall_mem_singleton.mpr ⟨trivial, List.forall_mem_nil _,
      ⟨trivial, ⟨by decide, hcondition, trivial⟩, trivial, trivial⟩,
      ⟨trivial, by decide, trivial, trivial, trivial, trivial⟩, trivial⟩
  obtain ⟨flat, hflat⟩ : ∃ flat, normalize items = .ok flat := ⟨_, rfl⟩
  obtain ⟨hagain, -, hlower⟩ := normalize_idempotent hflat
  refine ⟨flat, hflat, hwell, by decide, ?_, hagain, hlower _ _ hwell rfl⟩
  cases hflat
  rfl

end ControlFlow

end FrontEnd
