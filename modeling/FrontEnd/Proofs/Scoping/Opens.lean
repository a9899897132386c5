import FrontEnd.Proofs.Scoping.Frames
import FrontEnd.Proofs.Scoping.Lexical

/-!
# The stack of scopes

While a function is linked its scopes are kept on a stack that each block pushes to and
pops from. What the stack shows at a place is what can be seen there by the rules of
lexical scoping, and each step on the stack keeps it so.
-/

namespace FrontEnd

/-- The local that a parameter is. -/
def Param.toVariable (p : Param) : Variable := ⟨p.name, some p.type, true⟩

namespace Names.Scopes

/-- What is open shows what can be seen in a lexical scope; `outer` is what is open around the
innermost block. -/
structure Opens (σ : LexicalScope) (outer : List Scope) (locals : List Variable) (s : Scopes) :
    Prop where
  exists_own : ∃ own : Scope, s.scopes = own :: outer ∧
    ∀ name, (own.lookup name).isSome ↔ name ∈ σ.own
  find?_eq : ∀ name, s.find? name = σ.slot? name
  locals_eq : s.locals = locals

variable {σ τ : LexicalScope} {outer : List Scope} {locals locals' : List Variable} {s t : Scopes}
  {name : String} {type : Option ValueType} {isParam : Bool}

theorem opens_start (s : Scopes) : s.start.Opens .empty [] [] :=
  ⟨⟨[], rfl, fun _ => by simp [LexicalScope.empty]⟩, fun _ => rfl, rfl⟩

theorem Opens.descend (h : s.Opens σ outer locals) : s.descend.Opens σ.nested s.scopes locals :=
  ⟨⟨[], rfl, fun _ => by simp [LexicalScope.nested]⟩, h.find?_eq, h.locals_eq⟩

/-- Whatever has been declared in a block cannot be seen after it. -/
theorem Opens.ascend (h : s.Opens σ outer locals) (ht : t.Opens τ s.scopes locals') :
    t.ascend.Opens σ outer locals' := by
  obtain ⟨own, hopen, -⟩ := ht.exists_own
  have hscopes : t.ascend.scopes = s.scopes := by
    rw [Scopes.ascend, hopen, List.drop_one, List.tail_cons]
  refine ⟨?_, fun name => ?_, ht.locals_eq⟩
  · rw [hscopes]
    exact h.exists_own
  · rw [← h.find?_eq, find?, find?, hscopes]

theorem Opens.declare?_eq_none (h : s.Opens σ outer locals) (hname : name ∈ σ.own) :
    s.declare? name type isParam = none := by
  obtain ⟨own, hopen, hown⟩ := h.exists_own
  obtain ⟨hnone, -⟩ | ⟨scope, _, hscopes, hfree, -⟩ := s.declare?_cases name type isParam
  · exact hnone
  · obtain ⟨rfl, -⟩ := List.cons.inj (hopen.symm.trans hscopes)
    simpa [hfree] using (hown name).mpr hname

theorem Opens.exists_declare? (h : s.Opens σ outer locals) (hname : name ∉ σ.own)
    (type : Option ValueType) (isParam : Bool) :
    ∃ t, s.declare? name type isParam = some (locals.length, t) ∧
      t.Opens (σ.declare name locals.length) outer (locals ++ [⟨name, type, isParam⟩]) := by
  obtain ⟨own, hopen, hown⟩ := h.exists_own
  obtain ⟨-, hfull⟩ | ⟨scope, _, hscopes, -, hdeclared⟩ := s.declare?_cases name type isParam
  · exact absurd ((hown name).mp (hfull own outer hopen)) hname
  obtain ⟨rfl, rfl⟩ := List.cons.inj (hopen.symm.trans hscopes)
  rw [h.locals_eq] at hdeclared
  refine ⟨_, hdeclared, ⟨_, rfl, fun other => ?_⟩, fun other => ?_, rfl⟩
  · rw [LexicalScope.declare, List.mem_cons, ← hown other, List.lookup_cons]
    by_cases heq : other = name
    · simp [heq]
    · simp [heq, beq_eq_false_iff_ne.mpr heq]
  · rw [LexicalScope.declare]
    dsimp only
    rw [← h.find?_eq other, find?, find?, hopen, List.findSome?_cons, List.findSome?_cons,
      List.lookup_cons]
    by_cases heq : other = name
    · simp [heq]
    · simp [heq, beq_eq_false_iff_ne.mpr heq]

end Names.Scopes

namespace Compilation.Link

variable {α β : Type} {site : Site} {s : Linking}

theorem bind_apply_of_eq_error {x : Link α} {f : α → Link β} {d : Diagnostic} {t : Linking}
    (h : x s = .error d t) : (x >>= f) s = .error d t := by
  change EStateM.bind x f s = _
  unfold EStateM.bind
  rw [h]

theorem declareLocal_apply (token : Nat) (name : String) (type : Option ValueType)
    (isParam : Bool) : declareLocal site token name type isParam s =
      match s.scopes.declare? name type isParam with
      | some (slot, scopes) => .ok slot { s with scopes }
      | none => .error (site.buffer.locate ⟨token, .variableAlreadyDeclared name⟩) s := by
  unfold declareLocal
  rw [get_bind_apply]
  rcases s.scopes.declare? name type isParam with _ | ⟨slot, scopes⟩ <;> rfl

end Compilation.Link

end FrontEnd
