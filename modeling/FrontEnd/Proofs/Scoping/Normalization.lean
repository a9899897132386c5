import FrontEnd.Proofs.Scoping.Flattening
import FrontEnd.Proofs.Scoping.Lowering
import FrontEnd.Proofs.Scoping.Modules
import FrontEnd.Proofs.Scoping.Numbering
import FrontEnd.Proofs.Scoping.Temporaries

/-!
# Names stand for the same after flattening

The functions of a text are lowered and flattened before they are linked. Branches,
operands and conditions of loops are moved by that, but at each place of the source the
same is found as in the text, and no fault is found at the place of a temporary. So what
linking binds a name to is what the name stands for in the text, and linking finds fault
with a local name only where the text has that fault.
-/

namespace FrontEnd

open ControlFlow (temporary?)
open Finding (firstFault?)

/-! ## Functions of a text -/

/-- What is found where a path is used is mentioned there. -/
theorem Finding.exists_mention_ofPath {referent? : String → Option Referent} {token : Nat}
    {path : List String} {m : Mention} (hm : m.path = path) :
    ∀ x ∈ Finding.ofPath referent? token path, ∃ m' ∈ [m], m'.path = [x.name] := by
  match path with
  | [] | _ :: _ :: _ => exact List.forall_mem_nil _
  | [name] => exact List.forall_mem_singleton.mpr ⟨m, List.mem_singleton_self m, hm⟩

/-- What is found stands where a name is mentioned. -/
def Mentioned (ms : List Mention) (fs : List Finding) : Prop :=
  ∀ x ∈ fs, ∃ m ∈ ms, m.path = [x.name]

theorem Mentioned.append {ms ms' : List Mention} {fs fs' : List Finding} (h : Mentioned ms fs)
    (h' : Mentioned ms' fs') : Mentioned (ms ++ ms') (fs ++ fs') := by
  refine List.forall_mem_append.mpr ⟨fun x hx => ?_, fun x hx => ?_⟩
  · obtain ⟨m, hm, hname⟩ := h x hx
    exact ⟨m, List.mem_append_left _ hm, hname⟩
  · obtain ⟨m, hm, hname⟩ := h' x hx
    exact ⟨m, List.mem_append_right _ hm, hname⟩

mutual

theorem Node.mentioned_findings (referent? : String → Option Referent) : (n : Node) →
    Mentioned n.mentions (n.findings referent?)
  | .var token path _ => by
    rw [Node.mentions, Node.findings]
    exact Finding.exists_mention_ofPath rfl
  | .cond c => by
    rw [Node.mentions, Node.findings]
    exact c.mentioned_findings referent?
  | .int .. | .float .. | .bool .. | .op .. | .call .. => by
    rw [Node.findings]
    exact List.forall_mem_nil _

theorem Expr.mentioned_findings (referent? : String → Option Referent) : (e : List Node) →
    Mentioned (Expr.mentions e) (Expr.findings referent? e)
  | [] => by
    rw [Expr.findings_nil]
    exact List.forall_mem_nil _
  | n :: rest => by
    rw [Expr.mentions_cons, Expr.findings_cons]
    exact (n.mentioned_findings referent?).append (Expr.mentioned_findings referent? rest)

theorem Conditional.mentioned_findings (referent? : String → Option Referent) :
    (c : Conditional) → Mentioned c.mentions (c.findings referent?)
  | .mk _ condition onTrue onFalse _ _ => by
    rw [Conditional.mentions, Conditional.findings]
    exact ((Expr.mentioned_findings referent? condition).append
      (Block.mentioned_findings onTrue _)).append (Block.mentioned_findings onFalse _)

theorem Statement.mentioned_findings : (s : Statement) → (σ : NameScope) →
    Mentioned s.mentions (s.findings σ)
  | .declare token name _ value _, σ => by
    rw [Statement.mentions, Statement.findings]
    exact (Expr.mentioned_findings σ.referent? value).append
      (List.forall_mem_singleton.mpr ⟨_, List.mem_singleton_self _, rfl⟩)
  | .assign _ target value, σ => by
    rw [Statement.mentions, Statement.findings]
    exact (Expr.mentioned_findings σ.referent? value).append (Finding.exists_mention_ofPath rfl)
  | .eval _ value, σ | .ret _ value, σ => by
    rw [Statement.mentions, Statement.findings]
    exact Expr.mentioned_findings σ.referent? value
  | .cond c, σ => by
    rw [Statement.mentions, Statement.findings]
    exact c.mentioned_findings σ.referent?
  | .loop _ condition body, σ => by
    rw [Statement.mentions, Statement.findings]
    exact (Expr.mentioned_findings σ.referent? condition).append (Block.mentioned_findings body _)
  | .exit .., σ | .next .., σ => by
    rw [Statement.findings]
    exact List.forall_mem_nil _

theorem Block.mentioned_findings : (b : List Statement) → (σ : NameScope) →
    Mentioned (Block.mentions b) (Block.findings σ b)
  | [], σ => by
    rw [Block.findings_nil]
    exact List.forall_mem_nil _
  | s :: rest, σ => by
    rw [Block.mentions_cons, Block.findings_cons]
    exact (s.mentioned_findings σ).append (Block.mentioned_findings rest _)

end

/-- A function none of whose names is that of a temporary. -/
structure Function.IsSource (f : Function) : Prop where
  params : ∀ p ∈ f.params, temporary? [p.name] = none
  body : ∀ m ∈ Block.mentions f.body, temporary? m.path = none

namespace Function.IsSource

variable {f : Function}

theorem isTemporary_bodyFindings (h : f.IsSource) (globals : String → Option GlobalRef) :
    ∀ x ∈ f.bodyFindings globals, x.isTemporary = false := by
  intro x hx
  obtain ⟨m, hm, hpath⟩ := Block.mentioned_findings f.body _ x hx
  rw [Finding.isTemporary, ← hpath, h.body m hm]
  rfl

theorem sourceFindings_bodyFindings (h : f.IsSource) (globals : String → Option GlobalRef) :
    sourceFindings (f.bodyFindings globals) = f.bodyFindings globals :=
  List.filter_eq_self.mpr fun x hx => by
    rw [h.isTemporary_bodyFindings globals x hx, Bool.not_false]

theorem temporariesInOrder (h : f.IsSource) (globals : String → Option GlobalRef) :
    TemporariesInOrder (f.findings globals) :=
  .append (.of_source (NameScope.isTemporary_paramFindings h.params))
    (.of_source (h.isTemporary_bodyFindings globals))

end Function.IsSource

/-! ## Functions that are rewritten -/

/-- At the places of the source the same is found in the function `f'`, which is made of `f`, and
the first fault is the same. -/
structure Function.FindsAlike (globals : String → Option GlobalRef) (f f' : Function) : Prop where
  params : f'.params = f.params
  body : sourceFindings (f'.bodyFindings globals) = f.bodyFindings globals
  fault : firstFault? (f'.findings globals) = firstFault? (f.findings globals)

/-- What is found where sites are bound as they are, in a function with the parameters. -/
def findingsAt (params : List Param) (sites : List LocalSite) : List Finding :=
  sites.map (LocalSite.finding (Binding.referent? params sites))

namespace Function.FindsAlike

variable {globals : String → Option GlobalRef} {f f' : Function}

theorem of_view (hf : f.IsSource) (hparams : f'.params = f.params)
    (hview : Block.sourceView f'.body = Block.sourceView f.body)
    (htemporaries : TemporariesInOrder (f'.findings globals)) : f.FindsAlike globals f' := by
  have hbody :
      sourceFindings (f'.bodyFindings globals) = sourceFindings (f.bodyFindings globals) := by
    rw [bodyFindings, bodyFindings, hparams]
    exact congrFun hview _
  refine ⟨hparams, hbody.trans (hf.sourceFindings_bodyFindings globals), ?_⟩
  rw [← htemporaries.firstFault?, ← (hf.temporariesInOrder globals).firstFault?, findings, findings,
    sourceFindings_append, sourceFindings_append, hparams, hbody]

/-- Where lexical scoping rejects a function that is made of another one, it rejects that too, with
the same fault. Otherwise the names of the source stand for the same in both. -/
theorem resolve (h : f.FindsAlike globals f') :
    match f'.resolve globals with
    | .error fault => f.resolve globals = .error fault
    | .ok sites' => ∃ sites, f.resolve globals = .ok sites ∧
        sourceFindings (findingsAt f'.params sites') = findingsAt f.params sites := by
  have hsource := f.resolve_findings globals
  have hmade := f'.resolve_findings globals
  have hfault := h.fault
  cases hf' : f'.resolve globals with
  | error fault =>
    rw [hf'] at hmade
    rw [hmade] at hfault
    cases hf : f.resolve globals with
    | error fault' =>
      rw [hf] at hsource
      rw [hsource] at hfault
      cases hfault
      rfl
    | ok sites =>
      rw [hf] at hsource
      rw [hsource.1] at hfault
      cases hfault
  | ok sites' =>
    rw [hf'] at hmade
    rw [hmade.1] at hfault
    cases hf : f.resolve globals with
    | error fault =>
      rw [hf] at hsource
      rw [hsource] at hfault
      cases hfault
    | ok sites =>
      rw [hf] at hsource
      refine ⟨sites, rfl, ?_⟩
      rw [findingsAt, ← hmade.2, h.body, hsource.2, findingsAt]

end Function.FindsAlike

/-- Every name without a dot in the source `f` is bound in the linked function `g` to what it stands
for by lexical scoping in `f` itself. -/
structure Function.RefersAs (globals : String → Option GlobalRef) (f g : Function) : Prop where
  params : g.params = f.params
  resolve : ∃ sites, f.resolve globals = .ok sites ∧
    sourceFindings (findingsAt g.params (Block.localSites g.body)) = findingsAt f.params sites

theorem Function.FindsAlike.refersAs {globals : String → Option GlobalRef} {f f' g : Function}
    (h : f.FindsAlike globals f') (hbound : f'.BoundAs globals g) : f.RefersAs globals g := by
  have hresolve := h.resolve
  rw [hbound.resolve] at hresolve
  exact ⟨hbound.params.trans h.params, by rwa [hbound.params]⟩

namespace Compilation

variable {source : Source} {buffer : Token.Buffer} {items flat : List Item}

/-- No name in a function of a text is that of a temporary. -/
theorem isSource_function_of_parse? (hparse : source.parse? = some (buffer, items)) :
    ∀ f ∈ functionsOf items, f.IsSource := by
  intro f hf
  refine ⟨?_, temporary?_of_parse? hparse f hf⟩
  obtain ⟨hscan, hitems⟩ := Source.parse?_eq_some.mp hparse
  have hgives := Grammar.gives_items buffer.tokens
  rw [hitems] at hgives
  obtain ⟨i, hi, hif⟩ := List.mem_filterMap.mp hf
  cases hgives i hi with
  | function _ hparams _ =>
    cases hif
    intro p hp
    obtain ⟨t, ht, hspells⟩ := hparams p hp
    have hnames := Token.hasNames_scan hscan t (List.mem_of_getElem? ht)
    exact temporary?_of_areNames (hspells.areNames hnames)
  | global | imports | submodule => cases hif

/-- The items that are linked keep what is found at the places of the text. -/
theorem keepsFindings_rewritten
    (hflat : ControlFlow.normalize (ShortCircuit.lowerItems items).1 = .ok flat) :
    List.Forall₂ (Item.Keeps Block.sourceView) items flat := by
  have hlowered : List.Forall₂ (Item.Keeps Block.sourceView) items _ :=
    keeps_mono (ShortCircuit.keepsFindings_lowerItems items) fun b b' hb =>
      funext fun σ => congrArg sourceFindings (congrFun hb σ)
  exact keeps_trans hlowered (ControlFlow.keepsFindings_normalize hflat)

theorem findsAlike_normalize (hparse : source.parse? = some (buffer, items))
    (hflat : ControlFlow.normalize (ShortCircuit.lowerItems items).1 = .ok flat)
    (globals : String → Option GlobalRef) :
    List.Forall₂ (Function.FindsAlike globals) (functionsOf items) (functionsOf flat) := by
  have hkept := forall₂_functionsOf_of_keeps (keepsFindings_rewritten hflat)
  rw [List.forall₂_iff_zip] at hkept ⊢
  refine ⟨hkept.1, fun {f f'} hzip => ?_⟩
  obtain ⟨hf, hf'⟩ := List.of_mem_zip hzip
  obtain ⟨⟨body, rfl⟩, hview⟩ := hkept.2 hzip
  have hsource := isSource_function_of_parse? hparse f hf
  exact .of_view hsource rfl hview <|
    ControlFlow.temporariesInOrder_normalize hflat (isSource_of_parse? hparse) hf' hsource.params
      globals

/-- Neither a call nor a name with a dot is a temporary. -/
theorem not_isTemporary_of_apart {m : Mention} (h : m.isCall = true ∨ m.path.length ≠ 1) :
    m.isTemporary = false := by
  cases hm : m.isCall with
  | true =>
    cases m with
    | call => rfl
    | _ => cases hm
  | false =>
    refine isTemporary_of_temporary? ?_
    cases htemp : temporary? m.path with
    | none => rfl
    | some name =>
      rw [ControlFlow.temporary?_eq_some htemp, hm] at h
      rcases h with h | h
      · cases h
      · exact absurd rfl h

/-- The calls and the names with a dot in a function that is linked are those of its source. -/
theorem Link.FailsApart.of_sourceMentions {site : Site} {r : Registry} {b b' : Block}
    {d : Diagnostic} (h : Link.FailsApart site r (Block.mentions b') d)
    (hmentions : Block.sourceMentions b' = Block.sourceMentions b) :
    Link.FailsApart site r (Block.mentions b) d := by
  refine h.of_apart fun m hm hapart => ?_
  have hsource : m ∈ Block.sourceMentions b' := by
    refine List.mem_filter.mpr ⟨hm, ?_⟩
    rw [not_isTemporary_of_apart hapart, Bool.not_false]
  rw [hmentions] at hsource
  exact List.mem_of_mem_filter hsource

/-- **Flattening does not change what a name stands for.** A module is parsed, lowered and flattened,
and then linked. If that succeeds, every name without a dot that stands in the text is bound to the
parameter, the declaration or the global that it stands for by lexical scoping in the text. And
linking finds fault with a local name only where lexical scoping has that fault in the text: all
other failures are those of items that cannot be declared, and of calls and names with a dot. -/
theorem linkModule_lexicalScoping (hparse : source.parse? = some (buffer, items))
    (hflat : ControlFlow.normalize (ShortCircuit.lowerItems items).1 = .ok flat)
    (own : ModulePath) (require : ModulePath → Text.Position → Compile Unit) (r : Registry) :
    match linkModule ⟨own, buffer, require⟩ flat r with
    | .ok m _ => List.Forall₂ (Function.RefersAs (ownGlobal? own items)) (functionsOf items)
        (functionsOf m.items)
    | .error d _ =>
      (∃ f ∈ functionsOf items, ∃ fault,
        f.resolve (ownGlobal? own items) = .error fault ∧ d = buffer.locate fault) ∨
      Link.FailsToDeclare ⟨own, buffer, require⟩ r items d ∨
      ∃ f ∈ functionsOf items,
        Link.FailsApart ⟨own, buffer, require⟩ r (Block.mentions f.body) d := by
  have hlinks := linkModule_boundAs ⟨own, buffer, require⟩ flat r
  -- Only bodies are rewritten, so the module has the globals that the text gives it.
  have hglobals : ownGlobal? own flat = ownGlobal? own items := by
    funext name
    rw [ownGlobal?, ownGlobal?, signatures_of_keeps (keeps_rewritten hflat)]
  rw [hglobals] at hlinks
  have halike := findsAlike_normalize hparse hflat (ownGlobal? own items)
  cases hrun : linkModule ⟨own, buffer, require⟩ flat r with
  | ok m r' =>
    rw [hrun] at hlinks
    exact forall₂_compose (fun _ _ _ hfinds hbound => hfinds.refersAs hbound) halike hlinks
  | error d r' =>
    rw [hrun] at hlinks
    -- Each reason for which the flat items are rejected is led back to the text.
    rcases hlinks with hdeclare | ⟨f', hf', hapart | ⟨fault, hfault, rfl⟩⟩
    · exact .inr (.inl (hdeclare.of_keeps (keeps_rewritten hflat)))
    · obtain ⟨f, hf, -, hmentions⟩ :=
        exists_mem_of_forall₂ (forall₂_functionsOf_of_keeps (keeps_rewritten hflat)) hf'
      exact .inr (.inr ⟨f, hf, hapart.of_sourceMentions hmentions⟩)
    · obtain ⟨f, hf, hfinds⟩ := exists_mem_of_forall₂ halike hf'
      have hresolve := hfinds.resolve
      rw [hfault] at hresolve
      exact .inl ⟨f, hf, fault, hresolve, rfl⟩

/-- A conditional in the condition of a loop, a branch of which declares a local that hides the
parameter, as the body of the loop does. -/
def loopShadowing : Source :=
  ⟨"m", "global y: bool\nfn f(x: bool): bool \x7b\nwhile if x \x7b\nx := y\nx\n\x7d else " ++
    "\x7b\nx\n\x7d \x7b\nx := x\nx = y\n\x7d\nreturn x\n\x7d"⟩

theorem linkModule_lexicalScoping_loopShadowing :
    let y : Referent := .global ⟨⟨["m"]⟩, "y"⟩
    let found : List Finding :=
      [.used 18 "x" (some (.parameter 8)), .used 24 "y" (some y), .declared 21 "x" false,
        .used 26 "x" (some (.declaration 21)), .used 32 "x" (some (.parameter 8)),
        .used 40 "x" (some (.parameter 8)), .declared 37 "x" false, .used 44 "y" (some y),
        .used 42 "x" (some (.declaration 37)), .used 49 "x" (some (.parameter 8))]
    ∃ buffer items flat m r, loopShadowing.parse? = some (buffer, items) ∧
      ControlFlow.normalize (ShortCircuit.lowerItems items).1 = .ok flat ∧
      linkModule ⟨⟨["m"]⟩, buffer, fun _ _ => pure ()⟩ flat .empty = .ok m r ∧
      (functionsOf m.items).map (fun g =>
        sourceFindings (findingsAt g.params (Block.localSites g.body))) = [found] ∧
      List.Forall₂ (Function.RefersAs (ownGlobal? ⟨["m"]⟩ items)) (functionsOf items)
        (functionsOf m.items) := by
  intro y found
  have hfound : (loopShadowing.parse?.bind fun p =>
      (ControlFlow.normalize (ShortCircuit.lowerItems p.2).1).toOption.bind fun flat =>
        match linkModule ⟨⟨["m"]⟩, p.1, fun _ _ => pure ()⟩ flat .empty with
        | .ok m _ => some ((functionsOf m.items).map fun g =>
            sourceFindings (findingsAt g.params (Block.localSites g.body)))
        | .error _ _ => none) = some [found] := by
    decide +kernel
  obtain ⟨p, hparse, hflat⟩ := Option.bind_eq_some_iff.mp hfound
  obtain ⟨flat, hflat, hlink⟩ := Option.bind_eq_some_iff.mp hflat
  cases hnormalize : ControlFlow.normalize (ShortCircuit.lowerItems p.2).1 with
  | error fault =>
    rw [hnormalize] at hflat
    cases hflat
  | ok flat' =>
    rw [hnormalize] at hflat
    cases hflat
    have hscoping := linkModule_lexicalScoping hparse hnormalize ⟨["m"]⟩ (fun _ _ => pure ()) .empty
    cases hrun : linkModule ⟨⟨["m"]⟩, p.1, fun _ _ => pure ()⟩ flat .empty with
    | error d r =>
      rw [hrun] at hlink
      cases hlink
    | ok m r =>
      rw [hrun] at hlink hscoping
      exact ⟨p.1, p.2, flat, m, r, hparse, hnormalize, hrun, Option.some.inj hlink, hscoping⟩

end Compilation

end FrontEnd
