import FrontEnd.Proofs.Linking.Declarations
import FrontEnd.Proofs.References.Flattening
import FrontEnd.Proofs.References.Items
import FrontEnd.Proofs.References.Linking
import FrontEnd.Proofs.References.Lowering
import FrontEnd.Proofs.WellFormed.Modules

/-!
# Derivations of runs

What it takes for a module to be completed, or for that to fail, in terms of the
references of modules alone. Every run has such a derivation, so what is to be said of
runs can be shown by induction on derivations, one case for each thing that can happen
to a module.
-/

namespace FrontEnd

theorem Token.category_of_assemble {file : String} {done : List Token} {offset : Nat}
    {ls : List Lexeme} {d : Diagnostic} (h : assemble file done offset ls = .error d) :
    d.cause.category = .lexical := by
  induction ls generalizing done offset with
  | nil => cases h
  | cons l ls ih =>
    rw [assemble] at h
    split at h
    · next cause hshape =>
      cases h
      unfold Lexeme.shape? at hshape
      split at hshape <;> try cases hshape
      split at hshape <;> cases hshape
      rfl
    · exact ih h
    · exact ih h

theorem Token.category_of_scan {file text : String} {d : Diagnostic}
    (h : Buffer.scan file text = .error d) : d.cause.category = .lexical := by
  unfold Buffer.scan at h
  dsimp only at h
  split at h
  · next d' hassemble =>
    cases h
    exact category_of_assemble hassemble
  · split at h <;> cases h
    rfl

namespace Compilation

open Text (Position)

/-- The text of a file. -/
def File.source (f : File) : Source := ⟨f.name, f.text⟩

/-- A module is made of the items of its file: they are rewritten, and then declared and linked. -/
structure File.Makes (f : File) (items : List Item) (m : Module) : Prop where
  path : m.path = f.path
  linked : ∃ flat, ControlFlow.normalize (ShortCircuit.lowerItems items).1 = .ok flat ∧
    List.Forall₂ (Item.LinksTo f.path) flat m.items ∧ (flat.filterMap Item.signature?).Nodup

/-- What a file itself is at fault with: it cannot be cut into tokens, they spell no items, the
control flow of these cannot be flattened, or one of their names cannot be declared or bound. -/
inductive File.Faults (f : File) : Diagnostic → Prop
  | scanning {d : Diagnostic} (failed : Token.Buffer.scan f.name f.text = .error d) : Faults f d
  | reading {buffer : Token.Buffer} {fault : Fault}
    (scanned : Token.Buffer.scan f.name f.text = .ok buffer)
    (failed : Grammar.items buffer.tokens = .error fault) : Faults f (buffer.locate fault)
  | flattening {buffer : Token.Buffer} {items : List Item} {fault : Fault}
    (parsed : f.source.parse? = some (buffer, items))
    (failed : ControlFlow.normalize (ShortCircuit.lowerItems items).1 = .error fault) :
    Faults f (buffer.locate fault)
  | linking {buffer : Token.Buffer} {items flat : List Item} {fault : Fault}
    {require : ModulePath → Position → Compile Unit} {r r' : Registry}
    (parsed : f.source.parse? = some (buffer, items))
    (flattened : ControlFlow.normalize (ShortCircuit.lowerItems items).1 = .ok flat)
    (failed : linkModule ⟨f.path, buffer, require⟩ flat r = .error (buffer.locate fault) r')
    (token : fault.token < buffer.tokens.length) (cause : fault.cause.IsOwn) :
    Faults f (buffer.locate fault)

/-- A module has a file that is ready to be compiled, or gets one. -/
inductive Offers (sources : Sources) (path : ModulePath) : Registry → File → Registry → Prop
  | registered {r : Registry} {f : File} (found : r.search? path = some f)
    (ready : f.state = .ready) : Offers sources path r f r
  | loaded {r : Registry} {source : Source} (unknown : r.search? path = none)
    (load : sources.load path = some source) :
    Offers sources path r (.ofSource path source) (r.register path source)

/-- Modules are completed, one after the other. The last list holds those that are compiled for
this, in the order in which they are finished. -/
inductive Completes (sources : Sources) :
    List ModulePath → Registry → Registry → List ModulePath → Prop
  | nil {r : Registry} : Completes sources [] r r []
  | finished {path : ModulePath} {rest order : List ModulePath} {r r' : Registry} {f : File}
    (found : r.search? path = some f) (isFinished : f.IsFinished)
    (others : Completes sources rest r r' order) : Completes sources (path :: rest) r r' order
  | compiled {path : ModulePath} {rest inner order : List ModulePath} {r r₁ r₂ r' : Registry}
    {f : File} {buffer : Token.Buffer} {items : List Item} {m : Module}
    (offers : Offers sources path r f r₁) (parsed : f.source.parse? = some (buffer, items))
    (asked : Completes sources ((references path items).map Request.target)
      (r₁.start path) r₂ inner)
    (made : f.Makes items m)
    (imports_eq : m.symbols.imports =
      ((references path items).map Request.entry).reverse ++ [(path, path)])
    (others : Completes sources rest (r₂.finish path buffer m) r' order) :
    Completes sources (path :: rest) r r' (inner ++ path :: order)

/-- A module that is asked for at a position is not completed. At most as many modules as the number
says may wait for one another. -/
inductive Fails (sources : Sources) :
    Nat → ModulePath → Position → Registry → Diagnostic → Registry → Prop
  | waiting {depth : Nat} {path : ModulePath} {position : Position} {r : Registry} {f : File}
    (found : r.search? path = some f) (inProgress : f.state = .inProgress) :
    Fails sources depth path position r ⟨.circularDependency path.toText, position⟩ r
  | missing {depth : Nat} {path : ModulePath} {position : Position} {r : Registry}
    (unknown : r.search? path = none) (load : sources.load path = none) :
    Fails sources depth path position r ⟨.moduleNotFound path.toText, position⟩ r
  | exhausted {path : ModulePath} {position : Position} {r r₁ : Registry} {f : File}
    (offers : Offers sources path r f r₁) :
    Fails sources 0 path position r ⟨.circularDependency path.toText, position⟩ r₁
  /-- The module itself is at fault, perhaps after others have been completed for it. -/
  | own {depth : Nat} {path : ModulePath} {position : Position} {r r₁ r' : Registry} {f : File}
    {before order : List ModulePath} {d : Diagnostic} (offers : Offers sources path r f r₁)
    (asked : ∀ b ∈ before, ∃ buffer items, f.source.parse? = some (buffer, items) ∧
      b ∈ (references path items).map Request.target)
    (done : Completes sources before (r₁.start path) r' order)
    (fault : f.Faults d) : Fails sources (depth + 1) path position r d r'
  /-- A module that it refers to is not completed. -/
  | asked {depth : Nat} {path : ModulePath} {position : Position} {r r₁ r₂ r' : Registry}
    {f : File} {buffer : Token.Buffer} {items : List Item} {before after : List Request}
    {q : Request} {order : List ModulePath} {d : Diagnostic} (offers : Offers sources path r f r₁)
    (parsed : f.source.parse? = some (buffer, items))
    (references_eq : references path items = before ++ q :: after)
    (done : Completes sources (before.map Request.target) (r₁.start path) r₂ order)
    (failed : Fails sources depth q.target (buffer.position q.token) r₂ d r') :
    Fails sources (depth + 1) path position r d r'

/-- A file that is offered is ready and registered then. -/
theorem Offers.search? {sources : Sources} {path : ModulePath} {r r₁ : Registry} {f : File}
    (h : Offers sources path r f r₁) : r₁.search? path = some f ∧ f.state = .ready := by
  cases h with
  | registered found ready => exact ⟨found, ready⟩
  | loaded unknown load => exact ⟨by rw [Registry.search?_register unknown, if_pos rfl], rfl⟩

variable {sources : Sources} {r r₁ r' : Registry} {path : ModulePath} {position : Position}
  {paths paths' order order' : List ModulePath} {d : Diagnostic} {site : Site}
  {qs : List Request}

theorem Completes.append (h : Completes sources paths r r₁ order)
    (h' : Completes sources paths' r₁ r' order') :
    Completes sources (paths ++ paths') r r' (order ++ order') := by
  induction h with
  | nil => exact h'
  | finished hfound hfinished _ ih => exact .finished hfound hfinished (ih h')
  | compiled hoffers hparsed hasked hmade himports _ _ ih =>
    rw [List.append_assoc]
    exact .compiled hoffers hparsed hasked hmade himports (ih h')

/-- What is asked for a module, where asking completes modules. -/
theorem Site.Granted.completes
    (hsite : ∀ {path position r r'}, site.require path position r = .ok () r' →
      ∃ order, Completes sources [path] r r' order)
    (h : site.Granted qs r r') : ∃ order, Completes sources (qs.map Request.target) r r' order := by
  induction h with
  | nil => exact ⟨[], .nil⟩
  | cons hq _ ih =>
    obtain ⟨order, hfirst⟩ := hsite hq
    obtain ⟨order', hrest⟩ := ih
    exact ⟨order ++ order', hfirst.append hrest⟩

/-- The request at which linking has failed, unless the module itself is at fault. -/
theorem Site.Refused.exists_of_completes
    (hsite : ∀ {path position r r'}, site.require path position r = .ok () r' →
      ∃ order, Completes sources [path] r r' order)
    {T : Nat → Prop} (h : site.Refused T qs r d r') :
    (∃ before order fault, before ⊆ qs.map Request.target ∧ Completes sources before r r' order ∧
      d = site.buffer.locate fault ∧ T fault.token ∧ fault.cause.IsOwn) ∨
    ∃ before q after order r₁, qs = before ++ q :: after ∧
      Completes sources (before.map Request.target) r r₁ order ∧
      site.require q.target (site.buffer.position q.token) r₁ = .error d r' := by
  induction h with
  | own ht hcause => exact .inl ⟨[], [], _, List.nil_subset _, .nil, rfl, ht, hcause⟩
  | refused failed => exact .inr ⟨[], _, _, [], _, rfl, .nil, failed⟩
  | @granted q qs r r₁ r' d granted _ ih =>
    obtain ⟨order, hfirst⟩ := hsite granted
    rcases ih with ⟨before, order', fault, hsub, hdone, hown⟩ |
      ⟨before, q', after, order', r₂, rfl, hdone, failed⟩
    · exact .inl ⟨_, _, fault, List.cons_subset_cons _ hsub, hfirst.append hdone, hown⟩
    · exact .inr ⟨q :: before, q', after, _, r₂, rfl, hfirst.append hdone, failed⟩

theorem exists_of_bind_eq_error {ε σ α β : Type} {x : EStateM ε σ α} {f : α → EStateM ε σ β}
    {e : ε} {s s' : σ} (h : (x >>= f) s = .error e s') :
    x s = .error e s' ∨ ∃ a t, x s = .ok a t ∧ f a t = .error e s' := by
  change EStateM.bind x f s = _ at h
  unfold EStateM.bind at h
  cases hx : x s with
  | error e' t =>
    rw [hx] at h
    cases h
    exact .inl rfl
  | ok a t =>
    rw [hx] at h
    exact .inr ⟨a, t, rfl, h⟩

theorem eq_of_orFail_eq_ok {α : Type} {x : Except Diagnostic α} {a : α}
    (h : orFail x r = .ok a r') : x = .ok a ∧ r' = r := by
  cases x <;> cases h
  exact ⟨rfl, rfl⟩

theorem eq_of_orFail_eq_error {α : Type} {x : Except Diagnostic α}
    (h : orFail x r = .error d r') : x = .error d ∧ r' = r := by
  cases x <;> cases h
  exact ⟨rfl, rfl⟩

theorem eq_of_orFault_eq_ok {α : Type} {buffer : Token.Buffer} {x : Except Fault α} {a : α}
    (h : orFault buffer x r = .ok a r') : x = .ok a ∧ r' = r := by
  cases x <;> cases h
  exact ⟨rfl, rfl⟩

theorem exists_of_orFault_eq_error {α : Type} {buffer : Token.Buffer} {x : Except Fault α}
    (h : orFault buffer x r = .error d r') :
    ∃ fault, x = .error fault ∧ d = buffer.locate fault ∧ r' = r := by
  cases x <;> cases h
  exact ⟨_, rfl, rfl, rfl⟩

/-- The rewritten items that are linked mention what the items of the text mention, but for
temporaries. -/
theorem keeps_rewritten {items items' : List Item}
    (h : ControlFlow.normalize (ShortCircuit.lowerItems items).1 = .ok items') :
    List.Forall₂ (Item.Keeps Block.sourceMentions) items items' := by
  have hlowered : List.Forall₂ (Item.Keeps Block.sourceMentions) items _ :=
    keeps_mono (ShortCircuit.keeps_lowerItems items) fun b b' hb => congrArg withoutTemporaries hb
  exact keeps_trans hlowered (ControlFlow.keeps_normalize h)

/-- The rewritten items that are linked ask for what the items of the text ask for. -/
theorem references_of_normalize {items items' : List Item}
    (h : ControlFlow.normalize (ShortCircuit.lowerItems items).1 = .ok items') (own : ModulePath) :
    references own items' = references own items := by
  rw [references, references,
    requests_congr (keeps_mono (keeps_rewritten h) Block.dottedNames_congr)]

variable {require : ModulePath → Position → Compile Unit} {f : File}

/-- What it takes for a registered module to be compiled. -/
theorem compileModule_eq_ok_iff (hs : r.search? path = some f) :
    compileModule require path r = .ok () r' ↔ ∃ buffer items flat m r₁,
      f.source.parse? = some (buffer, items) ∧
      ControlFlow.normalize (ShortCircuit.lowerItems items).1 = .ok flat ∧
      linkModule ⟨path, buffer, require⟩ flat (r.start path) = .ok m r₁ ∧
      r' = r₁.finish path buffer m := by
  unfold compileModule
  rw [get_bind_apply]
  simp only [hs, modify_bind_apply]
  constructor
  · intro h
    -- One stage after the other has succeeded: scanning, reading, normalizing, and linking.
    obtain ⟨buffer, _, hbuffer, hparse⟩ := exists_of_bind_eq_ok h
    obtain ⟨items, _, hitems, hnormalize⟩ := exists_of_bind_eq_ok hparse
    obtain ⟨flat, _, hflat, hlink⟩ := exists_of_bind_eq_ok hnormalize
    obtain ⟨m, r₁, hm, hfinish⟩ := exists_of_bind_eq_ok hlink
    cases hfinish
    obtain ⟨hscanned, rfl⟩ := eq_of_orFail_eq_ok hbuffer
    obtain ⟨hread, rfl⟩ := eq_of_orFault_eq_ok hitems
    obtain ⟨hnormalized, rfl⟩ := eq_of_orFault_eq_ok hflat
    exact ⟨buffer, items, flat, m, r₁, Source.parse?_eq_some.mpr ⟨hscanned, hread⟩, hnormalized,
      hm, rfl⟩
  · rintro ⟨buffer, items, flat, m, r₁, hparse, hflat, hm, rfl⟩
    obtain ⟨hscan, hread⟩ := Source.parse?_eq_some.mp hparse
    have hscanned : orFail (Token.Buffer.scan f.name f.text) (r.start path) =
        .ok buffer (r.start path) :=
      congrArg (orFail · (r.start path)) hscan
    have hparsed : orFault buffer (Grammar.items buffer.tokens) (r.start path) =
        .ok items (r.start path) :=
      congrArg (orFault buffer · (r.start path)) hread
    have hflattened : orFault buffer (ControlFlow.normalize (ShortCircuit.lowerItems items).1)
        (r.start path) = .ok flat (r.start path) :=
      congrArg (orFault buffer · (r.start path)) hflat
    refine (bind_apply_of_eq_ok hscanned).trans ((bind_apply_of_eq_ok hparsed).trans ?_)
    exact (bind_apply_of_eq_ok hflattened).trans (bind_apply_of_eq_ok hm)

/-- A module has been compiled: all its references have been granted while it was in progress, and
its items refer to tokens of its buffer. -/
theorem compileModule_eq_ok (hs : r.search? path = some f)
    (h : compileModule require path r = .ok () r') :
    ∃ buffer items m r₁, f.source.parse? = some (buffer, items) ∧
      Site.Granted ⟨path, buffer, require⟩ (references path items) (r.start path) r₁ ∧
      f.Makes items m ∧
      m.symbols.imports = ((references path items).map Request.entry).reverse ++ [(path, path)] ∧
      (∀ i ∈ m.items, i.WellFormed (· < buffer.tokens.length)) ∧
      r' = r₁.finish path buffer m := by
  obtain ⟨buffer, items, flat, m, r₁, hparsed, hnormalized, hm, rfl⟩ :=
    (compileModule_eq_ok_iff hs).mp h
  have hflat := wellFormed_of_normalize hnormalized <|
    ShortCircuit.wellFormed_lowerItems (wellFormed_of_parse? hparsed)
  obtain ⟨hgranted, hpath, himports, hitems⟩ := linkModule_granted hflat hm
  have hreferences := references_of_normalize hnormalized path
  rw [hreferences] at hgranted himports
  obtain ⟨linked, s, hlinked, rfl, -⟩ := linkModule_eq_ok hm
  obtain ⟨hlinks, hnodup⟩ := Link.linkItems_linksTo hlinked
  obtain rfl := Registry.path_of_search? hs
  exact ⟨buffer, items, _, r₁, hparsed, hgranted,
    ⟨rfl, flat, hnormalized, hlinks, hnodup⟩, himports, hitems, rfl⟩

/-- A file that is at fault itself blames no other module. -/
theorem File.Faults.isOwn (h : f.Faults d) : d.cause.IsOwn := by
  cases h with
  | scanning failed => exact .of_category (by rw [Token.category_of_scan failed]; decide)
  | reading scanned failed =>
    exact .of_category (by rw [Token.Buffer.locate, Grammar.category_of_items failed]; decide)
  | flattening parsed failed =>
    refine .of_category ?_
    rw [Token.Buffer.locate, ControlFlow.category_of_normalize failed]
    decide
  | linking parsed flattened failed token cause => exact cause

/-- A module has not been compiled: its file is at fault, or a reference has not been granted. -/
theorem compileModule_eq_error (hs : r.search? path = some f)
    (h : compileModule require path r = .error d r') :
    (f.Faults d ∧ r' = r.start path) ∨
    ∃ buffer items flat, f.source.parse? = some (buffer, items) ∧
      ControlFlow.normalize (ShortCircuit.lowerItems items).1 = .ok flat ∧
      linkModule ⟨path, buffer, require⟩ flat (r.start path) = .error d r' ∧
      Site.Refused ⟨path, buffer, require⟩ (· < buffer.tokens.length) (references path items)
        (r.start path) d r' := by
  -- One stage after the other may fail: scanning, reading, normalizing, and linking.
  obtain hget | ⟨_, _, hget, hrest⟩ := exists_of_bind_eq_error h
  · cases hget
  cases hget
  simp only [hs] at hrest
  obtain hstart | ⟨_, r₁, hstart, hscan⟩ := exists_of_bind_eq_error hrest
  · cases hstart
  cases hstart
  obtain hbuffer | ⟨buffer, _, hbuffer, hparse⟩ := exists_of_bind_eq_error hscan
  · obtain ⟨hscanned, rfl⟩ := eq_of_orFail_eq_error hbuffer
    exact .inl ⟨.scanning hscanned, rfl⟩
  obtain ⟨hscanned, rfl⟩ := eq_of_orFail_eq_ok hbuffer
  obtain hitems | ⟨items, _, hitems, hnormalize⟩ := exists_of_bind_eq_error hparse
  · obtain ⟨fault, hread, rfl, rfl⟩ := exists_of_orFault_eq_error hitems
    exact .inl ⟨.reading hscanned hread, rfl⟩
  obtain ⟨hread, rfl⟩ := eq_of_orFault_eq_ok hitems
  have hparsed : f.source.parse? = some (buffer, items) :=
    Source.parse?_eq_some.mpr ⟨hscanned, hread⟩
  obtain hitems' | ⟨items', _, hitems', hlink⟩ := exists_of_bind_eq_error hnormalize
  · obtain ⟨fault, hnormalized, rfl, rfl⟩ := exists_of_orFault_eq_error hitems'
    exact .inl ⟨.flattening hparsed hnormalized, rfl⟩
  obtain ⟨hnormalized, rfl⟩ := eq_of_orFault_eq_ok hitems'
  obtain hm | ⟨m, r₂, hm, hfinish⟩ := exists_of_bind_eq_error hlink
  · have hflat := wellFormed_of_normalize hnormalized <|
      ShortCircuit.wellFormed_lowerItems (wellFormed_of_parse? hparsed)
    have hrefused := linkModule_refused hflat hm
    rw [references_of_normalize hnormalized path] at hrefused
    exact .inr ⟨buffer, items, items', hparsed, hnormalized, hm, hrefused⟩
  · cases hfinish

variable {compile : ModulePath → Compile Unit} {depth : Nat}

theorem requireWith_eq_ok (h : requireWith sources compile path position r = .ok () r') :
    (∃ f, r.search? path = some f ∧ f.IsFinished ∧ r' = r) ∨
      ∃ f r₁, Offers sources path r f r₁ ∧ compile path r₁ = .ok () r' := by
  obtain ⟨_, _, hget, hrest⟩ := exists_of_bind_eq_ok h
  cases hget
  cases hs : r.search? path with
  | some f =>
    simp only [hs] at hrest
    cases hstate : f.state with
    | finished =>
      simp only [hstate] at hrest
      cases hrest
      exact .inl ⟨f, rfl, hstate, rfl⟩
    | inProgress =>
      simp only [hstate] at hrest
      cases hrest
    | ready =>
      simp only [hstate] at hrest
      exact .inr ⟨f, r, .registered hs hstate, hrest⟩
  | none =>
    simp only [hs] at hrest
    cases hload : sources.load path with
    | none =>
      simp only [hload] at hrest
      cases hrest
    | some source =>
      simp only [hload] at hrest
      obtain ⟨_, _, hregister, hcompile⟩ := exists_of_bind_eq_ok hrest
      cases hregister
      exact .inr ⟨_, _, .loaded hs hload, hcompile⟩

theorem requireWith_eq_error (h : requireWith sources compile path position r = .error d r') :
    (∃ f, r.search? path = some f ∧ f.state = .inProgress ∧
        d = ⟨.circularDependency path.toText, position⟩ ∧ r' = r) ∨
      (r.search? path = none ∧ sources.load path = none ∧
        d = ⟨.moduleNotFound path.toText, position⟩ ∧ r' = r) ∨
      ∃ f r₁, Offers sources path r f r₁ ∧ compile path r₁ = .error d r' := by
  obtain hget | ⟨_, _, hget, hrest⟩ := exists_of_bind_eq_error h
  · cases hget
  cases hget
  cases hs : r.search? path with
  | some f =>
    simp only [hs] at hrest
    cases hstate : f.state with
    | finished =>
      simp only [hstate] at hrest
      cases hrest
    | inProgress =>
      simp only [hstate] at hrest
      cases hrest
      exact .inl ⟨f, rfl, hstate, rfl, rfl⟩
    | ready =>
      simp only [hstate] at hrest
      exact .inr (.inr ⟨f, r, .registered hs hstate, hrest⟩)
  | none =>
    simp only [hs] at hrest
    cases hload : sources.load path with
    | none =>
      simp only [hload] at hrest
      cases hrest
      exact .inr (.inl ⟨rfl, rfl, rfl, rfl⟩)
    | some source =>
      simp only [hload] at hrest
      obtain hregister | ⟨_, _, hregister, hcompile⟩ := exists_of_bind_eq_error hrest
      · cases hregister
      · cases hregister
        exact .inr (.inr ⟨_, _, .loaded hs hload, hcompile⟩)

/-- Every run that succeeds has a derivation. -/
theorem requireFrom_completes (h : requireFrom sources depth path position r = .ok () r') :
    ∃ order, Completes sources [path] r r' order := by
  induction depth generalizing path position r r' with
  | zero =>
    obtain ⟨f, hs, hf, rfl⟩ | ⟨f, r₁, -, hthrow⟩ := requireWith_eq_ok h
    · exact ⟨[], .finished hs hf .nil⟩
    · cases hthrow
  | succ depth ih =>
    obtain ⟨f, hs, hf, rfl⟩ | ⟨f, r₁, hoffers, hcompile⟩ := requireWith_eq_ok h
    · exact ⟨[], .finished hs hf .nil⟩
    · obtain ⟨buffer, items, m, r₂, hparsed, hgranted, hpath, himports, -, rfl⟩ :=
        compileModule_eq_ok hoffers.search?.1 hcompile
      obtain ⟨order, hasked⟩ := hgranted.completes ih
      exact ⟨_, .compiled hoffers hparsed hasked hpath himports .nil⟩

/-- Every run that fails has a derivation. -/
theorem requireFrom_fails (h : requireFrom sources depth path position r = .error d r') :
    Fails sources depth path position r d r' := by
  induction depth generalizing path position r d r' with
  | zero =>
    obtain ⟨f, hs, hstate, rfl, rfl⟩ | ⟨hs, hload, rfl, rfl⟩ | ⟨f, r₁, hoffers, hthrow⟩ :=
      requireWith_eq_error h
    · exact .waiting hs hstate
    · exact .missing hs hload
    · cases hthrow
      exact .exhausted hoffers
  | succ depth ih =>
    obtain ⟨f, hs, hstate, rfl, rfl⟩ | ⟨hs, hload, rfl, rfl⟩ | ⟨f, r₁, hoffers, hcompile⟩ :=
      requireWith_eq_error h
    · exact .waiting hs hstate
    · exact .missing hs hload
    obtain ⟨hfaults, rfl⟩ | ⟨buffer, items, flat, hparsed, hflattened, hlink, hrefused⟩ :=
      compileModule_eq_error hoffers.search?.1 hcompile
    · exact .own hoffers (List.forall_mem_nil _) .nil hfaults
    obtain ⟨before, order, fault, hsub, hdone, rfl, ht, hcause⟩ |
      ⟨before, q, after, order, r₂, heq, hdone, hfailed⟩ :=
      hrefused.exists_of_completes requireFrom_completes
    · refine .own hoffers (fun b hb => ⟨buffer, items, hparsed, hsub hb⟩) hdone ?_
      obtain rfl := Registry.path_of_search? hoffers.search?.1
      exact .linking hparsed hflattened hlink ht hcause
    · exact .asked hoffers hparsed heq hdone (ih hfailed)

end Compilation

end FrontEnd
