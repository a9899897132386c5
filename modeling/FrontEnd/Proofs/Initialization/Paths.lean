import FrontEnd.Proofs.ControlFlow.Temporaries

/-!
# Control-flow paths

What happens to variables along a path. A path takes either block of a conditional and any
number of turns of a loop, whatever the conditions are, and follows exits, `next` and
returns. It may also end where a statement begins, so a run that never ends is covered by
paths that follow its beginning.
-/

namespace FrontEnd

open ControlFlow (temporary?)

/-- What happens to a variable. -/
inductive Event
  | read (path : List String)
  | write (path : List String)
  | declare (name : String) (initialized : Bool)
  deriving DecidableEq, Repr

/-- How a path ends. -/
inductive Flow
  | goesOn
  | returns
  /-- As many enclosing loops as given are left. -/
  | leaves (loops : Nat)
  /-- The enclosing loop goes on with its next turn. -/
  | repeats
  /-- The path is followed no further. -/
  | stops
  deriving DecidableEq, Repr

/-- How a path through a loop ends if one through its body ends in this way. There may be another
turn if it does not end. -/
def Flow.afterLoop? : Flow → Option Flow
  | goesOn | repeats => none
  | leaves loops => some (if loops ≤ 1 then goesOn else leaves (loops - 1))
  | returns => some returns
  | stops => some stops

/-- The variables of an expression are read in order. -/
def Expr.reads (e : Expr) : List Event := (Expr.paths e).map .read

/-- Paths through a loop, from what happens in its condition and the paths through its body. -/
inductive LoopPath (test : List Event) (body : List Event → Flow → Prop) : List Event → Flow → Prop
  | done : LoopPath test body test .goesOn
  | turn {es es' : List Event} {flow flow' : Flow} (h : body es flow) (hf : flow.afterLoop? = none)
    (others : LoopPath test body es' flow') : LoopPath test body (test ++ es ++ es') flow'
  | ends {es : List Event} {flow flow' : Flow} (h : body es flow)
    (hf : flow.afterLoop? = some flow') : LoopPath test body (test ++ es) flow'

mutual

/-- A path through a statement, with what happens on it and how it ends. -/
def Statement.HasPath : Statement → List Event → Flow → Prop
  | .declare _ name _ value _, es, flow =>
    es = Expr.reads value ++ [.declare name (!value.isEmpty)] ∧ flow = .goesOn
  | .assign _ target value, es, flow =>
    es = Expr.reads value ++ [.write target.path] ∧ flow = .goesOn
  | .eval _ value, es, flow => es = Expr.reads value ∧ flow = .goesOn
  | .ret _ value, es, flow => es = Expr.reads value ∧ flow = .returns
  | .cond c, es, flow => c.HasPath es flow
  | .loop _ condition body, es, flow =>
    LoopPath (Expr.reads condition) (Block.HasPath body) es flow
  | .exit _ amount, es, flow => es = [] ∧ flow = .leaves amount
  | .next _, es, flow => es = [] ∧ flow = .repeats

/-- A path through a conditional goes through one of its blocks. -/
def Conditional.HasPath : Conditional → List Event → Flow → Prop
  | .mk _ condition onTrue onFalse _ _, es, flow =>
    ∃ es', es = Expr.reads condition ++ es' ∧
      (Block.HasPath onTrue es' flow ∨ Block.HasPath onFalse es' flow)

/-- A path through a block. -/
def Block.HasPath : List Statement → List Event → Flow → Prop
  | [], es, flow => es = [] ∧ (flow = .goesOn ∨ flow = .stops)
  | s :: rest, es, flow =>
    (es = [] ∧ flow = .stops) ∨
    (s.HasPath es flow ∧ flow ≠ .goesOn) ∨
    ∃ es₁ es₂, s.HasPath es₁ .goesOn ∧ Block.HasPath rest es₂ flow ∧ es = es₁ ++ es₂

end

/-- Since its last declaration, a variable has been initialized or assigned. -/
def HoldsValue (history : List Event) (name : String) : Prop :=
  ∃ earlier initialized since, history = earlier ++ .declare name initialized :: since ∧
    (∀ again, .declare name again ∉ since) ∧ (initialized = true ∨ .write [name] ∈ since)

/-- Wherever a temporary is read, it holds a value. -/
def ReadsHold (history es : List Event) : Prop :=
  ∀ before path after, es = before ++ .read path :: after →
    ∀ name, temporary? path = some name → HoldsValue (history ++ before) name

namespace HoldsValue

variable {history es : List Event} {name : String}

/-- A value is kept where the variable is not declared again. -/
theorem append (h : HoldsValue history name) (hes : ∀ again, .declare name again ∉ es) :
    HoldsValue (history ++ es) name := by
  obtain ⟨earlier, initialized, since, rfl, hsince, hvalue⟩ := h
  refine ⟨earlier, initialized, since ++ es, by simp, fun again hm => ?_, ?_⟩
  · rcases List.mem_append.mp hm with hm | hm
    · exact hsince again hm
    · exact hes again hm
  · exact hvalue.imp_right (List.mem_append_left es)

/-- A declaration with a value. -/
theorem declared (history : List Event) (name : String) :
    HoldsValue (history ++ [.declare name true]) name :=
  ⟨history, true, [], rfl, fun _ => List.not_mem_nil, .inl rfl⟩

/-- There is a last one among the declarations of a variable. -/
theorem exists_last_declare (h : ∃ initialized, .declare name initialized ∈ history) :
    ∃ earlier initialized since, history = earlier ++ .declare name initialized :: since ∧
      ∀ again, .declare name again ∉ since := by
  induction history with
  | nil =>
    obtain ⟨initialized, hm⟩ := h
    cases hm
  | cons e rest ih =>
    by_cases hrest : ∃ initialized, .declare name initialized ∈ rest
    · obtain ⟨earlier, initialized, since, rfl, hsince⟩ := ih hrest
      exact ⟨e :: earlier, initialized, since, rfl, hsince⟩
    · obtain ⟨initialized, hm⟩ := h
      rcases List.mem_cons.mp hm with rfl | hm
      · exact ⟨[], initialized, rest, rfl, fun again hagain => hrest ⟨again, hagain⟩⟩
      · exact absurd ⟨initialized, hm⟩ hrest

/-- A variable that is declared has a value once it is assigned. -/
theorem written (h : ∃ initialized, .declare name initialized ∈ history) :
    HoldsValue (history ++ [.write [name]]) name := by
  obtain ⟨earlier, initialized, since, rfl, hsince⟩ := exists_last_declare h
  refine ⟨earlier, initialized, since ++ [.write [name]], by simp, fun again hm => ?_,
    .inr (by simp)⟩
  rcases List.mem_append.mp hm with hm | hm
  · exact hsince again hm
  · cases List.mem_singleton.mp hm

end HoldsValue

namespace ReadsHold

variable {history es es' : List Event}

theorem nil (history : List Event) : ReadsHold history [] := by
  intro before path after h
  simp at h

/-- What is read later may use what happens before. -/
theorem append (h : ReadsHold history es) (h' : ReadsHold (history ++ es) es') :
    ReadsHold history (es ++ es') := by
  intro before path after heq name hname
  rcases List.append_eq_append_iff.mp heq with ⟨mid, rfl, hmid⟩ | ⟨mid, rfl, hmid⟩
  · rw [← List.append_assoc]
    exact h' mid path after hmid name hname
  · cases mid with
    | nil =>
      have hnow := h' [] path after hmid.symm name hname
      rwa [List.append_nil, List.append_nil] at hnow
    | cons e mid =>
      obtain ⟨rfl, -⟩ := List.cons.inj hmid
      exact h before path mid rfl name hname

/-- An event that reads nothing. -/
theorem singleton {e : Event} (h : ∀ path, e ≠ .read path) : ReadsHold history [e] := by
  intro before path after heq
  have hm : Event.read path ∈ [e] := by rw [heq]; simp
  exact absurd (List.mem_singleton.mp hm).symm (h path)

/-- An expression may read temporaries that hold a value. -/
theorem reads {e : Expr}
    (h : ∀ path ∈ Expr.paths e, ∀ name, temporary? path = some name → HoldsValue history name) :
    ReadsHold history (Expr.reads e) := by
  intro before path after heq name hname
  have hm : ∀ e' ∈ before ++ .read path :: after, ∃ p ∈ Expr.paths e, Event.read p = e' := by
    intro e' he'
    rw [← heq, Expr.reads] at he'
    exact List.mem_map.mp he'
  obtain ⟨p, hp, hread⟩ := hm (.read path) (by simp)
  cases hread
  refine (h path hp name hname).append fun again hagain => ?_
  obtain ⟨q, -, hq⟩ := hm _ (List.mem_append_left _ hagain)
  cases hq

end ReadsHold

end FrontEnd
