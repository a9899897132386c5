import FrontEnd.Command
import FrontEnd.Proofs.References.Linking
import FrontEnd.Proofs.Tree.Items

/-!
# What linking makes of items

Linking fills in what names stand for and leaves the rest of a tree as it is. Items are
declared one after the other, and no two functions of a module agree in name and number
of arguments, nor two globals in their name. So the items that are linked tell which
functions and globals there are, each with a unique name made of its signature.
-/

namespace FrontEnd

/-- What tells a function or a global of a module apart from the others: its name, and the number of
arguments of a function. -/
def Item.signature? : Item → Option (String × Option Nat)
  | function f => some (f.name, some f.arity)
  | global g => some (g.name, none)
  | _ => none

/-- What an item of the module `own` becomes. The unique name is that of its signature; the body
mentions the same names, and has as many calls. -/
inductive Item.LinksTo (own : ModulePath) : Item → Item → Prop
  | function (f : Function) {index : Nat} {locals : List Variable} {body : Block}
    (mentions : Block.mentions body = Block.mentions f.body)
    (calls : (Command.callsInBlock body).length = (Command.callsInBlock f.body).length) :
    LinksTo own (.function f) (.function { f with
      index, uniqueName := some (FunctionRef.uniqueName ⟨own, f.name, f.arity, index⟩), locals, body })
  | global (g : Global) : LinksTo own (.global g)
      (.global { g with uniqueName := some (GlobalRef.uniqueName ⟨own, g.name⟩) })
  | imports (i : Import) : LinksTo own (.imports i) (.imports i)
  | submodule (s : Submodule) : LinksTo own (.submodule s) (.submodule s)

namespace Names.Symbols

/-- The signatures that have been declared. -/
def signatures (s : Symbols) : List (String × Option Nat) :=
  s.functions.map (fun f => (f.ref.name, some f.ref.arity)) ++ s.globals.map fun g => (g.ref.name, none)

variable {s s' : Symbols} {module : ModulePath} {name : String}

theorem mem_signatures_function {arity : Nat} :
    (name, some arity) ∈ s.signatures ↔ s.functionsOf name arity ≠ [] := by
  rw [signatures, List.mem_append, ← List.isEmpty_eq_false_iff, List.isEmpty_eq_false_iff_exists_mem]
  constructor
  · rintro (h | h)
    · obtain ⟨f, hf, heq⟩ := List.mem_map.mp h
      cases heq
      exact ⟨f, mem_functionsOf.mpr ⟨hf, rfl, rfl⟩⟩
    · obtain ⟨g, -, heq⟩ := List.mem_map.mp h
      cases heq
  · rintro ⟨f, hf⟩
    obtain ⟨hmem, hname, harity⟩ := mem_functionsOf.mp hf
    exact .inl (List.mem_map.mpr ⟨f, hmem, by rw [hname, harity]⟩)

theorem mem_signatures_global : (name, none) ∈ s.signatures ↔ (s.global? name).isSome := by
  rw [signatures, List.mem_append, Option.isSome_iff_exists]
  constructor
  · rintro (h | h)
    · obtain ⟨f, -, heq⟩ := List.mem_map.mp h
      cases heq
    · obtain ⟨g, hg, heq⟩ := List.mem_map.mp h
      cases heq
      refine Option.isSome_iff_exists.mp ?_
      rw [global?, List.find?_isSome]
      exact ⟨g, hg, BEq.rfl⟩
  · rintro ⟨g, hg⟩
    obtain ⟨hmem, hname⟩ := mem_of_global? hg
    exact .inr (List.mem_map.mpr ⟨g, hmem, by rw [hname]⟩)

/-- A function is declared under a new signature. -/
theorem signatures_declareFunction? {arity : Nat} {isPublic : Bool} {ref : FunctionRef}
    (h : s.declareFunction? module name arity isPublic = some (ref, s')) :
    (name, some arity) ∉ s.signatures ∧
      ∀ sig, sig ∈ s'.signatures ↔ sig = (name, some arity) ∨ sig ∈ s.signatures := by
  obtain ⟨hnone, -, rfl, rfl, rfl⟩ := declareFunction?_eq_some h
  refine ⟨fun hmem => mem_signatures_function.mp hmem hnone, fun sig => ?_⟩
  simp only [signatures, List.map_append, List.map_singleton, List.mem_append, List.mem_singleton]
  tauto

/-- A global is declared under a new signature. -/
theorem signatures_declareGlobal? {type : ValueType} {isMutable isPublic : Bool} {ref : GlobalRef}
    (h : s.declareGlobal? module name type isMutable isPublic = some (ref, s')) :
    (name, none) ∉ s.signatures ∧
      ∀ sig, sig ∈ s'.signatures ↔ sig = (name, none) ∨ sig ∈ s.signatures := by
  have hnone : s.global? name = none := by
    unfold declareGlobal? at h
    split at h
    · cases h
    · assumption
  obtain ⟨-, rfl, rfl⟩ := declareGlobal?_eq_some h
  refine ⟨fun hmem => ?_, fun sig => ?_⟩
  · have hsome := mem_signatures_global.mp hmem
    rw [hnone] at hsome
    cases hsome
  · simp only [signatures, List.map_append, List.map_singleton, List.mem_append,
      List.mem_singleton]
    tauto

end Names.Symbols

namespace Compilation.Link

open Command (callsInExpr callsInStatement callsInBlock)
open Names (Symbols)

variable {site : Site} {s s' : Linking}

theorem importModule_symbols {target handle : ModulePath} {token : Nat}
    (h : importModule site target handle token s = .ok () s') :
    s'.symbols = s.symbols.addImport handle target := by
  rw [importModule_apply] at h
  split at h <;> cases h
  rfl

theorem length_callsInExpr_cons (n : Node) (rest : Expr) :
    (callsInExpr (n :: rest)).length = (callsInExpr [n]).length + (callsInExpr rest).length := by
  rw [← List.length_append, callsInExpr, callsInExpr, callsInExpr, ← List.filterMap_append]
  rfl

/-- A value stays a value, and nothing takes the place of none. -/
theorem isEmpty_of_linkExpr {e e' : List Node} {s s' : Linking}
    (h : linkExpr site e s = .ok e' s') : e'.isEmpty = e.isEmpty := by
  cases e with
  | nil =>
    cases h
    rfl
  | cons n rest =>
    rw [linkExpr] at h
    obtain ⟨n', s₁, -, hrest⟩ := exists_of_bind_eq_ok h
    obtain ⟨rest', s₂, -, hpure⟩ := exists_of_bind_eq_ok hrest
    cases hpure
    rfl

mutual

theorem linkNode_keeps : ∀ (n : Node) {n' : Node} {s s' : Linking},
    linkNode site n s = .ok n' s' →
      n'.mentions = n.mentions ∧ (callsInExpr [n']).length = (callsInExpr [n]).length
  | .var token path binding, n', s, s', h => by
    rw [linkNode] at h
    obtain ⟨b, s₁, -, hpure⟩ := exists_of_bind_eq_ok h
    cases hpure
    exact ⟨by rw [Node.mentions, Node.mentions], rfl⟩
  | .call token path arity candidates, n', s, s', h => by
    rw [linkNode] at h
    obtain ⟨b, s₁, -, hpure⟩ := exists_of_bind_eq_ok h
    cases hpure
    exact ⟨by rw [Node.mentions, Node.mentions], rfl⟩
  | .cond c, n', s, s', h => by
    rw [linkNode] at h
    obtain ⟨c', s₁, hc, hpure⟩ := exists_of_bind_eq_ok h
    cases hpure
    rw [Node.mentions, Node.mentions]
    exact ⟨(linkConditional_keeps c hc).1, rfl⟩
  | .int .., n', s, s', h | .float .., n', s, s', h | .bool .., n', s, s', h
  | .op .., n', s, s', h => by
    cases h
    exact ⟨rfl, rfl⟩

theorem linkExpr_keeps : ∀ (e : List Node) {e' : List Node} {s s' : Linking},
    linkExpr site e s = .ok e' s' →
      Expr.mentions e' = Expr.mentions e ∧ (callsInExpr e').length = (callsInExpr e).length
  | [], e', s, s', h => by
    cases h
    exact ⟨rfl, rfl⟩
  | n :: rest, e', s, s', h => by
    rw [linkExpr] at h
    obtain ⟨n', s₁, hn, hrest⟩ := exists_of_bind_eq_ok h
    obtain ⟨rest', s₂, hrest, hpure⟩ := exists_of_bind_eq_ok hrest
    cases hpure
    obtain ⟨hmentions, hcalls⟩ := linkNode_keeps n hn
    obtain ⟨hmentions', hcalls'⟩ := linkExpr_keeps rest hrest
    refine ⟨?_, ?_⟩
    · rw [Expr.mentions, Expr.mentions, hmentions, hmentions']
    · rw [length_callsInExpr_cons, hcalls, hcalls', ← length_callsInExpr_cons]

theorem linkConditional_keeps : ∀ (c : Conditional) {c' : Conditional} {s s' : Linking},
    linkConditional site c s = .ok c' s' → c'.mentions = c.mentions ∧
      (callsInStatement (.cond c')).length = (callsInStatement (.cond c)).length
  | .mk token condition onTrue onFalse _ _, c', s, s', h => by
    rw [linkConditional] at h
    obtain ⟨condition', s₁, hcondition, hrest⟩ := exists_of_bind_eq_ok h
    obtain ⟨onTrue', s₂, htrue, hrest⟩ := exists_of_bind_eq_ok hrest
    obtain ⟨onFalse', s₃, hfalse, hpure⟩ := exists_of_bind_eq_ok hrest
    cases hpure
    obtain ⟨_, htrue, -⟩ := inScope_eq_ok htrue
    obtain ⟨_, hfalse, -⟩ := inScope_eq_ok hfalse
    obtain ⟨hm, hn⟩ := linkExpr_keeps condition hcondition
    obtain ⟨hm₁, hn₁⟩ := linkBlock_keeps onTrue htrue
    obtain ⟨hm₂, hn₂⟩ := linkBlock_keeps onFalse hfalse
    refine ⟨?_, ?_⟩
    · rw [Conditional.mentions, Conditional.mentions, hm, hm₁, hm₂]
    · simp only [callsInStatement, List.length_append, hn, hn₁, hn₂]

theorem linkStatement_keeps : ∀ (st : Statement) {st' : Statement} {s s' : Linking},
    linkStatement site st s = .ok st' s' → st'.mentions = st.mentions ∧
      (callsInStatement st').length = (callsInStatement st).length
  | .declare token name type value _, st', s, s', h => by
    rw [linkStatement] at h
    obtain ⟨value', s₁, hvalue, hrest⟩ := exists_of_bind_eq_ok h
    obtain ⟨slot, s₂, -, hpure⟩ := exists_of_bind_eq_ok hrest
    cases hpure
    obtain ⟨hm, hn⟩ := linkExpr_keeps value hvalue
    refine ⟨?_, by simpa [callsInStatement] using hn⟩
    rw [Statement.mentions, Statement.mentions, hm, isEmpty_of_linkExpr hvalue]
  | .assign token target value, st', s, s', h => by
    rw [linkStatement] at h
    obtain ⟨value', s₁, hvalue, hrest⟩ := exists_of_bind_eq_ok h
    obtain ⟨binding, s₂, -, hpure⟩ := exists_of_bind_eq_ok hrest
    cases hpure
    obtain ⟨hm, hn⟩ := linkExpr_keeps value hvalue
    exact ⟨by rw [Statement.mentions, Statement.mentions, hm], by simpa [callsInStatement] using hn⟩
  | .eval token value, st', s, s', h | .ret token value, st', s, s', h => by
    rw [linkStatement] at h
    obtain ⟨value', s₁, hvalue, hpure⟩ := exists_of_bind_eq_ok h
    cases hpure
    obtain ⟨hm, hn⟩ := linkExpr_keeps value hvalue
    exact ⟨by rw [Statement.mentions, Statement.mentions, hm], by simpa [callsInStatement] using hn⟩
  | .cond c, st', s, s', h => by
    rw [linkStatement] at h
    obtain ⟨c', s₁, hc, hpure⟩ := exists_of_bind_eq_ok h
    cases hpure
    rw [Statement.mentions, Statement.mentions]
    exact linkConditional_keeps c hc
  | .loop token condition body, st', s, s', h => by
    rw [linkStatement] at h
    obtain ⟨condition', s₁, hcondition, hrest⟩ := exists_of_bind_eq_ok h
    obtain ⟨body', s₂, hbody, hpure⟩ := exists_of_bind_eq_ok hrest
    cases hpure
    obtain ⟨_, hbody, -⟩ := inScope_eq_ok hbody
    obtain ⟨hm, hn⟩ := linkExpr_keeps condition hcondition
    obtain ⟨hm', hn'⟩ := linkBlock_keeps body hbody
    refine ⟨by rw [Statement.mentions, Statement.mentions, hm, hm'], ?_⟩
    simp only [callsInStatement, List.length_append, hn, hn']
  | .exit .., st', s, s', h | .next .., st', s, s', h => by
    cases h
    exact ⟨rfl, rfl⟩

/-- Linking keeps what a block mentions, and the number of its calls. -/
theorem linkBlock_keeps : ∀ (b : List Statement) {b' : List Statement} {s s' : Linking},
    linkBlock site b s = .ok b' s' → Block.mentions b' = Block.mentions b ∧
      (callsInBlock b').length = (callsInBlock b).length
  | [], b', s, s', h => by
    cases h
    exact ⟨rfl, rfl⟩
  | st :: rest, b', s, s', h => by
    rw [linkBlock] at h
    obtain ⟨st', s₁, hst, hrest⟩ := exists_of_bind_eq_ok h
    obtain ⟨rest', s₂, hrest, hpure⟩ := exists_of_bind_eq_ok hrest
    cases hpure
    obtain ⟨hm, hn⟩ := linkStatement_keeps st hst
    obtain ⟨hm', hn'⟩ := linkBlock_keeps rest hrest
    refine ⟨by rw [Block.mentions, Block.mentions, hm, hm'], ?_⟩
    simp only [callsInBlock, List.length_append, hn, hn']

end

theorem linkFunction_keeps {f f' : Function} (h : linkFunction site f s = .ok f' s') :
    ∃ body locals, f' = { f with body, locals } ∧ Block.mentions body = Block.mentions f.body ∧
      (callsInBlock body).length = (callsInBlock f.body).length := by
  obtain ⟨_, s₁, -, hrest⟩ := exists_of_bind_eq_ok h
  obtain ⟨_, s₂, -, hrest⟩ := exists_of_bind_eq_ok hrest
  obtain ⟨body, s₃, hbody, hlast⟩ := exists_of_bind_eq_ok hrest
  cases hlast
  exact ⟨body, _, rfl, linkBlock_keeps f.body hbody⟩

/-- Items that are declared link to what is made of them when their bodies are linked. -/
theorem linkBodies_linksTo {own : ModulePath} {items declared items' : List Item}
    (hdeclared : List.Forall₂ (Item.LinksTo own) items declared)
    (h : linkBodies site declared s = .ok items' s') :
    List.Forall₂ (Item.LinksTo own) items items' := by
  induction hdeclared generalizing s items' with
  | nil =>
    cases h
    exact .nil
  | cons hi _ ih =>
    cases hi with
    | function f hm hn =>
      rw [linkBodies] at h
      obtain ⟨_, s₁, hbody, htail⟩ := exists_of_bind_eq_ok h
      obtain ⟨f', _, hf, hmap⟩ := exists_of_bind_eq_ok hbody
      cases hmap
      obtain ⟨rest', s₂, hrest, hpure⟩ := exists_of_bind_eq_ok htail
      cases hpure
      obtain ⟨body, locals, rfl, hm', hn'⟩ := linkFunction_keeps hf
      exact .cons (.function f (hm'.trans hm) (hn'.trans hn)) (ih hrest)
    | global | imports | submodule =>
      obtain ⟨_, _, hi, htail⟩ := exists_of_bind_eq_ok h
      cases hi
      obtain ⟨rest', s₁, hrest, hpure⟩ := exists_of_bind_eq_ok htail
      cases hpure
      exact .cons (by constructor) (ih hrest)

/-- An item is declared under a signature that is new. -/
theorem declareItem_linksTo {i i' : Item} (h : declareItem site i s = .ok i' s') :
    i.LinksTo site.own i' ∧ (∀ sig, i.signature? = some sig → sig ∉ s.symbols.signatures) ∧
      ∀ sig, sig ∈ s'.symbols.signatures ↔
        i.signature? = some sig ∨ sig ∈ s.symbols.signatures := by
  cases i with
  | imports i =>
    obtain ⟨_, s₁, himport, hrest⟩ := exists_of_bind_eq_ok h
    obtain ⟨_, s₂, hselected, hpure⟩ := exists_of_bind_eq_ok hrest
    cases hpure
    obtain rfl := checkSelected_eq_ok hselected
    rw [importModule_symbols himport]
    exact ⟨.imports i, nofun, fun sig => (or_iff_right nofun).symm⟩
  | submodule m =>
    obtain ⟨_, s₁, himport, hpure⟩ := exists_of_bind_eq_ok h
    cases hpure
    rw [importModule_symbols himport]
    exact ⟨.submodule m, nofun, fun sig => (or_iff_right nofun).symm⟩
  | global g =>
    obtain ⟨_, s₁, hget, hrest⟩ := exists_of_bind_eq_ok h
    cases hget
    cases hd : s.symbols.declareGlobal? site.own g.name g.type g.isMutable g.isPublic with
    | none =>
      simp only [hd] at hrest
      cases hrest
    | some declared =>
      obtain ⟨ref, symbols⟩ := declared
      simp only [hd] at hrest
      cases hrest
      obtain ⟨hnew, hmem⟩ := Symbols.signatures_declareGlobal? hd
      obtain ⟨hmodule, hname, -⟩ := Symbols.declareGlobal?_eq_some hd
      obtain ⟨own, name⟩ := ref
      cases hmodule
      cases hname
      refine ⟨.global g, fun sig hsig => ?_, fun sig => ?_⟩
      · cases hsig
        exact hnew
      · rw [hmem, Item.signature?, Option.some.injEq, eq_comm]
  | function f =>
    obtain ⟨_, s₁, hget, hrest⟩ := exists_of_bind_eq_ok h
    cases hget
    cases hd : s.symbols.declareFunction? site.own f.name f.arity f.isPublic with
    | none =>
      simp only [hd] at hrest
      cases hrest
    | some declared =>
      obtain ⟨ref, symbols⟩ := declared
      simp only [hd] at hrest
      cases hrest
      obtain ⟨hnew, hmem⟩ := Symbols.signatures_declareFunction? hd
      obtain ⟨-, hmodule, hname, harity, -⟩ := Symbols.declareFunction?_eq_some hd
      obtain ⟨own, name, arity, index⟩ := ref
      cases hmodule
      cases hname
      cases harity
      refine ⟨.function f rfl rfl, fun sig hsig => ?_, fun sig => ?_⟩
      · cases hsig
        exact hnew
      · rw [hmem, Item.signature?, Option.some.injEq, eq_comm]

/-- The signatures of items that are declared are new and distinct. -/
theorem declareItems_linksTo {items items' : List Item}
    (h : declareItems site items s = .ok items' s') :
    List.Forall₂ (Item.LinksTo site.own) items items' ∧ (items.filterMap Item.signature?).Nodup ∧
      ∀ sig ∈ items.filterMap Item.signature?, sig ∉ s.symbols.signatures := by
  induction items generalizing s items' with
  | nil =>
    cases h
    exact ⟨.nil, .nil, nofun⟩
  | cons i rest ih =>
    rw [declareItems] at h
    obtain ⟨i', s₁, hi, htail⟩ := exists_of_bind_eq_ok h
    obtain ⟨rest', s₂, hrest, hpure⟩ := exists_of_bind_eq_ok htail
    cases hpure
    obtain ⟨hlinks, hnew, hmem⟩ := declareItem_linksTo hi
    obtain ⟨hlinks', hnodup, hnew'⟩ := ih hrest
    have hrest' : ∀ sig ∈ rest.filterMap Item.signature?, sig ∉ s.symbols.signatures :=
      fun sig hsig hold => hnew' sig hsig ((hmem sig).mpr (.inr hold))
    refine ⟨.cons hlinks hlinks', ?_⟩
    cases hsig : i.signature? with
    | none =>
      rw [List.filterMap_cons_none hsig]
      exact ⟨hnodup, hrest'⟩
    | some sig =>
      rw [List.filterMap_cons_some hsig]
      refine ⟨List.nodup_cons.mpr ⟨fun hin => ?_, hnodup⟩, ?_⟩
      · exact hnew' sig hin ((hmem sig).mpr (.inl hsig))
      · exact List.forall_mem_cons.mpr ⟨hnew sig hsig, hrest'⟩

/-- What linking makes of the items of a module. -/
theorem linkItems_linksTo {items items' : List Item} (h : linkItems site items s = .ok items' s') :
    List.Forall₂ (Item.LinksTo site.own) items items' ∧
      (items.filterMap Item.signature?).Nodup := by
  obtain ⟨_, s₁, -, hrest⟩ := exists_of_bind_eq_ok h
  obtain ⟨declared, s₂, hdeclare, hbodies⟩ := exists_of_bind_eq_ok hrest
  obtain ⟨hlinks, hnodup, -⟩ := declareItems_linksTo hdeclare
  exact ⟨linkBodies_linksTo hlinks hbodies, hnodup⟩

end Compilation.Link

end FrontEnd
