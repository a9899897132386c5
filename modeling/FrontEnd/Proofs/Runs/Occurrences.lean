import FrontEnd.Proofs.ControlFlow.Items
import FrontEnd.Proofs.Runs.Building

/-!
# Calls and variables are kept

The calls and variables of a text, in the order in which they stand, are those of the
items after lowering, and those of the flat items but for temporaries. Linking keeps
them too, and in a flat body no call is hidden inside of an expression, so as many calls
are counted for a function as its source has.
-/

namespace FrontEnd

open ControlFlow (temporary?)

/-- The calls and the variables that are read in a block. -/
def Block.occurrences (b : Block) : List Mention := (Block.mentions b).filter Mention.isNode

/-- The functions in order, each with its calls and variables. -/
def occurrencesOf (items : List Item) : List (String × List Mention) :=
  (functionsOf items).map fun f => (f.name, Block.occurrences f.body)

/-- The functions in order, each with its calls and variables but for temporaries. -/
def sourceOccurrencesOf (items : List Item) : List (String × List Mention) :=
  (functionsOf items).map fun f => (f.name, withoutTemporaries (Block.occurrences f.body))

/-- The number of calls in the source of a function. -/
def Function.callSites (f : Function) : Nat := (Block.mentions f.body).countP Mention.isCall

theorem withoutTemporaries_occurrences (b : Block) :
    withoutTemporaries (Block.occurrences b) = (Block.sourceMentions b).filter Mention.isNode :=
  List.filter_comm _ _ _

/-- The functions have bodies that look alike. -/
theorem map_functionsOf_eq {α : Type} {view : Block → α} {items items' : List Item}
    (h : List.Forall₂ (Item.Keeps view) items items') :
    (functionsOf items').map (fun f => (f.name, view f.body)) =
      (functionsOf items).map fun f => (f.name, view f.body) := by
  rw [← List.forall₂_eq_eq_eq, List.forall₂_map_left_iff, List.forall₂_map_right_iff]
  refine (forall₂_functionsOf_of_keeps h).flip.imp fun f' f hkept => ?_
  obtain ⟨⟨_, rfl⟩, hview⟩ := hkept
  exact Prod.ext rfl hview

theorem occurrencesOf_lowerItems (items : List Item) :
    occurrencesOf (ShortCircuit.lowerItems items).1 = occurrencesOf items :=
  map_functionsOf_eq <| keeps_mono (ShortCircuit.keeps_lowerItems items) fun _ _ h =>
    congrArg (List.filter Mention.isNode) h

theorem sourceOccurrencesOf_lowerItems (items : List Item) :
    sourceOccurrencesOf (ShortCircuit.lowerItems items).1 = sourceOccurrencesOf items := by
  have hmap := congrArg (List.map fun p : String × List Mention => (p.1, withoutTemporaries p.2))
    (occurrencesOf_lowerItems items)
  rw [occurrencesOf, occurrencesOf, List.map_map, List.map_map] at hmap
  exact hmap

theorem sourceOccurrencesOf_normalize {items flat : List Item}
    (h : ControlFlow.normalize items = .ok flat) :
    sourceOccurrencesOf flat = sourceOccurrencesOf items := by
  have hview : ∀ b b', Block.sourceMentions b = Block.sourceMentions b' →
      withoutTemporaries (Block.occurrences b) = withoutTemporaries (Block.occurrences b') := by
    intro b b' hb
    rw [withoutTemporaries_occurrences, withoutTemporaries_occurrences, hb]
  exact map_functionsOf_eq (keeps_mono (ControlFlow.keeps_normalize h) hview)

/-- A name that is made of names is not that of a temporary. -/
theorem temporary?_of_areNames {path : List String} (h : AreNames path) : temporary? path = none := by
  unfold temporary?
  split
  · next name =>
    have hname := h name (List.mem_singleton_self _)
    rw [if_neg]
    intro hmark
    rw [beq_iff_eq] at hmark
    obtain ⟨cs, hcs⟩ := List.head?_eq_some_iff.mp hmark
    rw [hcs, isModuleName, Bool.and_eq_true] at hname
    exact absurd hname.1 (by decide)
  · rfl

/-- Nothing that a text mentions is a temporary. -/
theorem temporary?_of_spelled {tokens : List Token} (htokens : ∀ t ∈ tokens, t.HasNames)
    {ms : List Mention} (h : Grammar.Spelled tokens ms) : ∀ m ∈ ms, temporary? m.path = none := by
  intro m hm
  obtain ⟨⟨t, ht, hspells⟩, -⟩ := h m hm
  exact temporary?_of_areNames (hspells.areNames (htokens t (List.mem_of_getElem? ht)))

theorem isTemporary_of_temporary? {m : Mention} (h : temporary? m.path = none) :
    m.isTemporary = false := by
  cases m with
  | call => rfl
  | read | write | declare => exact congrArg Option.isSome h

theorem withoutTemporaries_eq_self {ms : List Mention} (h : ∀ m ∈ ms, m.isTemporary = false) :
    withoutTemporaries ms = ms :=
  List.filter_eq_self.mpr fun m hm => by rw [h m hm, Bool.not_false]

theorem length_callsInExpr {e : Expr} (h : Expr.IsFlat e) :
    (Command.callsInExpr e).length = (Expr.mentions e).countP Mention.isCall := by
  induction e with
  | nil => rfl
  | cons n rest ih =>
    rw [Expr.IsFlat, Expr.containsConditional, List.any_cons, Bool.or_eq_false_iff] at h
    have hn : (Command.callsInExpr [n]).length = n.mentions.countP Mention.isCall := by
      cases n with
      | cond => cases h.1
      | _ => rw [Node.mentions]; rfl
    rw [Compilation.Link.length_callsInExpr_cons, hn, ih h.2, Expr.mentions_cons,
      List.countP_append]

mutual

theorem length_callsInStatement : ∀ s : Statement, (∀ e ∈ s.exprs, Expr.IsFlat e) →
    (Command.callsInStatement s).length = s.mentions.countP Mention.isCall
  | .declare token name _ value _, h => by
    rw [Statement.exprs] at h
    have hvalue : Expr.IsFlat value := .of_value h
    rw [Command.callsInStatement, Statement.mentions, length_callsInExpr hvalue,
      List.countP_append]
    rfl
  | .assign _ target value, h => by
    have hvalue : Expr.IsFlat value := h value (by rw [Statement.exprs]; exact .head _)
    rw [Command.callsInStatement, Statement.mentions, length_callsInExpr hvalue,
      List.countP_append]
    rfl
  | .eval _ value, h => by
    have hvalue : Expr.IsFlat value := h value (by rw [Statement.exprs]; exact .head _)
    rw [Command.callsInStatement, Statement.mentions, length_callsInExpr hvalue]
  | .ret _ value, h => by
    rw [Statement.exprs] at h
    have hvalue : Expr.IsFlat value := .of_value h
    rw [Command.callsInStatement, Statement.mentions, length_callsInExpr hvalue]
  | .cond (.mk _ condition onTrue onFalse _ _), h => by
    rw [Statement.exprs, Conditional.exprs, List.forall_mem_append, List.forall_mem_append,
      List.forall_mem_cons] at h
    obtain ⟨⟨⟨hcondition, -⟩, htrue⟩, hfalse⟩ := h
    rw [Command.callsInStatement, Statement.mentions, Conditional.mentions, List.length_append,
      List.length_append, length_callsInExpr hcondition, length_callsInBlock onTrue htrue,
      length_callsInBlock onFalse hfalse, List.countP_append, List.countP_append]
  | .loop _ condition body, h => by
    rw [Statement.exprs, List.forall_mem_append, List.forall_mem_cons] at h
    obtain ⟨⟨hcondition, -⟩, hbody⟩ := h
    rw [Command.callsInStatement, Statement.mentions, List.length_append,
      length_callsInExpr hcondition, length_callsInBlock body hbody, List.countP_append]
  | .exit .., _ | .next .., _ => by
    rw [Command.callsInStatement, Statement.mentions]
    rfl

/-- In a plain block every call stands in an expression of its own statement. -/
theorem length_callsInBlock : ∀ b : List Statement, Block.IsPlain b →
    (Command.callsInBlock b).length = (Block.mentions b).countP Mention.isCall
  | [], _ => by
    rw [Command.callsInBlock]
    rfl
  | s :: rest, h => by
    rw [Block.IsPlain, Block.exprs, List.forall_mem_append] at h
    rw [Command.callsInBlock, Block.mentions, List.length_append, length_callsInStatement s h.1,
      length_callsInBlock rest h.2, List.countP_append]

end

/-- A call is not a temporary. -/
theorem countP_isCall_withoutTemporaries (ms : List Mention) :
    (withoutTemporaries ms).countP Mention.isCall = ms.countP Mention.isCall := by
  rw [withoutTemporaries, List.countP_filter]
  refine List.countP_congr fun m _ => ?_
  cases m <;> simp [Mention.isCall, Mention.isTemporary]

namespace Compilation

variable {source : Source} {buffer : Token.Buffer} {items flat : List Item}

/-- No function of a text mentions a temporary. -/
theorem temporary?_of_parse? (hparse : source.parse? = some (buffer, items)) :
    ∀ f ∈ functionsOf items, ∀ m ∈ Block.mentions f.body, temporary? m.path = none := by
  obtain ⟨hscan, hitems⟩ := Source.parse?_eq_some.mp hparse
  exact fun f hf => temporary?_of_spelled (Token.hasNames_scan hscan)
    (Grammar.spelled_of_mem_functionsOf hitems hf)

theorem sourceOccurrencesOf_of_parse? (hparse : source.parse? = some (buffer, items)) :
    sourceOccurrencesOf items = occurrencesOf items := by
  refine List.map_congr_left fun f hf => congrArg (f.name, ·) ?_
  refine withoutTemporaries_eq_self fun m hm => ?_
  exact isTemporary_of_temporary? (temporary?_of_parse? hparse f hf m (List.mem_of_mem_filter hm))

/-- Linking keeps the number of calls of every function. -/
theorem map_functionsOf_of_linksTo {own : ModulePath} {items' : List Item}
    (h : List.Forall₂ (Item.LinksTo own) items items') :
    (functionsOf items').map (fun f => (f.name, (Command.callsInBlock f.body).length)) =
      (functionsOf items).map fun f => (f.name, (Command.callsInBlock f.body).length) := by
  induction h with
  | nil => rfl
  | cons hi _ ih =>
    cases hi with
    | function f _ hcalls =>
      refine congrArg₂ List.cons ?_ ih
      dsimp only
      rw [hcalls]
    | global | imports | submodule => exact ih

/-- A finished module has the functions of its file, each with as many calls as its source has. -/
theorem File.Makes.callSites {f : File} {m : Module} (h : f.Makes items m) :
    (functionsOf m.items).map (fun f => (f.name, (Command.callsInBlock f.body).length)) =
      (functionsOf items).map fun f => (f.name, f.callSites) := by
  obtain ⟨-, flat, hflat, hlinks, -⟩ := h
  have hplain := ControlFlow.isPlain_normalize hflat
  calc (functionsOf m.items).map (fun f => (f.name, (Command.callsInBlock f.body).length))
      = (functionsOf flat).map fun f => (f.name, (Command.callsInBlock f.body).length) :=
        map_functionsOf_of_linksTo hlinks
    _ = (functionsOf flat).map fun f =>
          (f.name, (Block.sourceMentions f.body).countP Mention.isCall) := by
        refine List.map_congr_left fun f hf => congrArg (f.name, ·) ?_
        rw [length_callsInBlock f.body (hplain f hf), Block.sourceMentions,
          countP_isCall_withoutTemporaries]
    _ = (functionsOf items).map fun f =>
          (f.name, (Block.sourceMentions f.body).countP Mention.isCall) :=
        map_functionsOf_eq <| keeps_mono (keeps_rewritten hflat) fun _ _ hb =>
          congrArg (List.countP Mention.isCall) hb
    _ = (functionsOf items).map fun f => (f.name, f.callSites) := by
        refine List.map_congr_left fun f _ => congrArg (f.name, ·) ?_
        rw [Block.sourceMentions, countP_isCall_withoutTemporaries, Function.callSites]

/-- The command lists a function with the number of calls in the source of another one, from which
it is made. -/
def ListedFor (source f : Function) : Prop :=
  f.name = source.name ∧ Command.functionLine f =
    s!"  {f.uniqueName.getD f.name} ({f.locals.length} locals, {source.callSites} calls, {
      (Command.callsInBlock f.body).flatten.length} candidates)\n"

/-- The line about a function of a finished module gives the number of calls in its source. -/
theorem File.Makes.functionLine {f : File} {m : Module} (h : f.Makes items m) :
    List.Forall₂ ListedFor (functionsOf items) (functionsOf m.items) := by
  have hmaps := h.callSites
  rw [← List.forall₂_eq_eq_eq, List.forall₂_map_left_iff, List.forall₂_map_right_iff] at hmaps
  refine hmaps.flip.imp fun g f hpair => ?_
  obtain ⟨hname, hcalls⟩ := Prod.mk.inj hpair
  refine ⟨hname, ?_⟩
  rw [Command.functionLine, hcalls]

/-- **No call and no variable is lost, duplicated or reordered.** Lowering keeps the calls and
variables of a text, in the order in which they stand, and so does flattening, but for temporaries.
So for every function the command prints as many calls as its source has. -/
theorem occurrencesOf_parsed (hparse : source.parse? = some (buffer, items)) :
    occurrencesOf (ShortCircuit.lowerItems items).1 = occurrencesOf items ∧
    (∀ rewritten flat, rewritten = items ∨ rewritten = (ShortCircuit.lowerItems items).1 →
      ControlFlow.normalize rewritten = .ok flat →
        sourceOccurrencesOf flat = occurrencesOf items) ∧
    ∀ sources path r f m, compileEntry sources path .empty = .ok () r → f ∈ r.files →
      f.source = source → f.module? = some m →
        List.Forall₂ ListedFor (functionsOf items) (functionsOf m.items) := by
  have hsource := sourceOccurrencesOf_of_parse? hparse
  refine ⟨occurrencesOf_lowerItems items, ?_, ?_⟩
  · rintro rewritten flat (rfl | rfl) hflat
    · rw [sourceOccurrencesOf_normalize hflat, hsource]
    · rw [sourceOccurrencesOf_normalize hflat, sourceOccurrencesOf_lowerItems, hsource]
  · rintro sources path r f m h hf rfl hm
    have hr : r = filesAfter .empty [(sources, .compileEntry path)] := by
      change r = remaining (compileEntry sources path .empty)
      rw [h]
      rfl
    rw [hr] at hf
    obtain ⟨buffer', items', hparse', hmakes⟩ := filesAfter_made _ hf hm
    rw [hparse] at hparse'
    cases hparse'
    exact hmakes.functionLine

/-- A call behind `&&` that takes a conditional, in the condition of a loop. -/
def guardedLoop : Source :=
  ⟨"main", "fn f() \x7b while a && g(if a \x7b h() \x7d else \x7b a \x7d) \x7b a = h() \x7d \x7d"⟩

theorem occurrences_guardedLoop :
    ∃ buffer items, guardedLoop.parse? = some (buffer, items) ∧
      occurrencesOf items = [("f", [.read 6 ["a"], .read 11 ["a"], .call 13 ["h"] 0,
        .read 19 ["a"], .call 8 ["g"] 1, .call 25 ["h"] 0])] ∧
      occurrencesOf (ShortCircuit.lowerItems items).1 = occurrencesOf items ∧
      (∀ rewritten flat, rewritten = items ∨ rewritten = (ShortCircuit.lowerItems items).1 →
        ControlFlow.normalize rewritten = .ok flat →
          sourceOccurrencesOf flat = occurrencesOf items) ∧
      ∀ sources path r f m, compileEntry sources path .empty = .ok () r → f ∈ r.files →
        f.source = guardedLoop → f.module? = some m →
          List.Forall₂ ListedFor (functionsOf items) (functionsOf m.items) := by
  have hlist : (guardedLoop.parse?.map fun p => occurrencesOf p.2) = some [("f", [.read 6 ["a"],
      .read 11 ["a"], .call 13 ["h"] 0, .read 19 ["a"], .call 8 ["g"] 1, .call 25 ["h"] 0])] := by
    decide +kernel
  obtain ⟨p, hparse, hitems⟩ := Option.map_eq_some_iff.mp hlist
  exact ⟨p.1, p.2, hparse, hitems, occurrencesOf_parsed hparse⟩

end Compilation

end FrontEnd
