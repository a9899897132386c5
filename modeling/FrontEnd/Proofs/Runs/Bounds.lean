import FrontEnd.Proofs.Runs.Sessions
import FrontEnd.Proofs.Token.Places
import FrontEnd.Proofs.WellFormed.Ranges

/-!
# No index is out of bounds

Later stages look things up by number: tokens by their places among the tokens of a file,
operands by ranges of a sequence, files by their places in the registry. Whatever is read,
rewritten, linked or called, no such number leads outside.
-/

namespace FrontEnd

namespace Grammar

variable {tokens : List Token} {c : Cursor}

/-- To look ahead is to look up a place, or the last one where that is not as far. -/
theorem Cursor.In.peek (h : c.In tokens) (n : Nat) :
    tokens[min (c.index + n) (tokens.length - 1)]? = some (c.peek n) := by
  have hlength : tokens.length - c.index = c.rest.length + 1 := by
    rw [← List.length_drop, h, List.length_cons]
  have hplace : ∀ k, tokens[c.index + k]? = (c.current :: c.rest)[k]? := fun k => by
    rw [← List.getElem?_drop, h]
  rw [Cursor.peek]
  by_cases hn : n < c.rest.length + 1
  · rw [Nat.min_eq_left (by omega), hplace, List.getElem?_eq_getElem hn, Option.getD_some]
  · have hlast : tokens.length - 1 = c.index + c.rest.length := by omega
    have hpast : (c.current :: c.rest)[n]? = none :=
      List.getElem?_eq_none (Nat.le_of_not_lt hn)
    rw [Nat.min_eq_right (by omega), hlast, hplace, hpast, Option.getD_none,
      List.getLastD_eq_getLast?, ← List.getLast?_cons, List.getLast?_eq_getElem?, List.length_cons,
      Nat.add_sub_cancel]

end Grammar

open Grammar (Cursor Yields YieldsWellFormed)

namespace Token

variable {file text : String} {b : Buffer}

/-- All tokens that items refer to are tokens of the buffer. -/
def Buffer.Holds (b : Buffer) (items : List Item) : Prop :=
  ∀ i ∈ items, ∀ t ∈ i.tokens, t < b.tokens.length

/-- A stage gives items that refer to tokens of the buffer, or fails at one of these. -/
def Buffer.HoldsResult (b : Buffer) : Except Fault (List Item) → Prop
  | .ok items => b.Holds items
  | .error fault => fault.token < b.tokens.length

theorem Buffer.holds_of_wellFormed {items : List Item}
    (h : ∀ i ∈ items, i.WellFormed (· < b.tokens.length)) : b.Holds items :=
  fun i hi => (h i hi).tokens

theorem Buffer.holdsResult_of_wellFormed {x : Except Fault (List Item)}
    (h : match x with
      | .ok items => ∀ i ∈ items, i.WellFormed (· < b.tokens.length)
      | .error fault => fault.token < b.tokens.length) : b.HoldsResult x := by
  cases x with
  | ok items => exact holds_of_wellFormed h
  | error fault => exact h

/-- Readers stay inside a buffer, even if other tokens came after those of it. -/
structure Buffer.ReadsInside (b : Buffer) : Prop where
  /-- A look ahead gives a token of the buffer: the last one, where there are not as many. -/
  peek : ∀ {c : Cursor}, c.In b.tokens → ∀ n,
    b.tokens[min (c.index + n) (b.tokens.length - 1)]? = some (c.peek n)
  /-- The last token ends the file, and the start is at or before it. -/
  start : ∀ more, ∃ c, Cursor.ofTokens? (b.tokens ++ more) = some c ∧
    c.Within (b.tokens ++ more) (b.tokens.length - 1)
  /-- No reader of expressions and statements moves past the last token. -/
  parts : ∀ more fuel, YieldsWellFormed (b.tokens ++ more) (b.tokens.length - 1) fuel
  /-- The reader of items does not either. -/
  items : ∀ more {c}, c.Within (b.tokens ++ more) (b.tokens.length - 1) → ∀ fuel,
    Yields (b.tokens ++ more) (b.tokens.length - 1)
      (fun is => ∀ i ∈ is, i.WellFormed (· ≤ b.tokens.length - 1)) (Grammar.itemsFrom fuel []) c

theorem Buffer.readsInside_of_scan (h : Buffer.scan file text = .ok b) : b.ReadsInside := by
  obtain ⟨ts, eof, rfl, hend⟩ := Buffer.exists_of_scan h
  have hlast : (ts ++ [eof]).length - 1 = ts.length := by
    rw [List.length_append, List.length_singleton, Nat.add_sub_cancel]
  refine ⟨fun hc n => hc.peek n, fun more => ?_, fun more fuel => Grammar.yieldsWellFormed _ _ fuel,
    fun more c hc fuel => Grammar.yields_itemsFrom hc fuel (List.forall_mem_nil _)⟩
  have heof : (ts ++ [eof] ++ more)[ts.length]? = some eof := by simp
  rw [hlast]
  cases htokens : ts ++ [eof] ++ more with
  | nil => simp at htokens
  | cons first rest =>
    rw [htokens] at heof
    exact ⟨_, rfl, rfl, Nat.zero_le _, eof, heof, hend⟩

end Token

namespace Compilation

open Registry
open Text (Position)

variable {file text : String} {b buffer : Token.Buffer} {items : List Item} {sources : Sources}
  {r r' r₁ : Registry} {path : ModulePath} {position : Position} {f : File} {m : Module}
  {d : Diagnostic} {site : Site} {qs : List Request} {depth : Nat}

/-- From reading a file to linking it, items refer to tokens of its buffer. What fails does so at
one of them, or because a module that is asked for at one of them is not completed. -/
structure StagesInside (b : Token.Buffer) : Prop where
  parsed : b.HoldsResult (Grammar.items b.tokens)
  lowered : ∀ {items}, Grammar.items b.tokens = .ok items →
    b.Holds (ShortCircuit.lowerItems items).1
  flattened : ∀ {items}, Grammar.items b.tokens = .ok items →
    b.HoldsResult (ControlFlow.normalize (ShortCircuit.lowerItems items).1)
  requested : ∀ {items}, Grammar.items b.tokens = .ok items → ∀ own, ∀ q ∈ references own items,
    q.token < b.tokens.length
  linked : ∀ {items flat}, Grammar.items b.tokens = .ok items →
    ControlFlow.normalize (ShortCircuit.lowerItems items).1 = .ok flat → ∀ own require r,
      match linkModule ⟨own, b, require⟩ flat r with
      | .ok m r' => Site.Granted ⟨own, b, require⟩ (references own items) r r' ∧ b.Holds m.items
      | .error d r' =>
        Site.Refused ⟨own, b, require⟩ (· < b.tokens.length) (references own items) r d r'

/-- The module of a file refers to no tokens but those of the file, which it holds too. -/
def File.HoldsTokens (f : File) : Prop :=
  ∀ m, f.module? = some m → ∃ buffer, f.tokens? = some buffer ∧
    Token.Buffer.scan f.name f.text = .ok buffer ∧ buffer.Holds m.items

/-- Every finished module refers to tokens of its own file only. -/
def Registry.HoldsTokens (r : Registry) : Prop := ∀ path f, r.search? path = some f → f.HoldsTokens

theorem token_lt_of_mem_references (hitems : Grammar.items b.tokens = .ok items) {own : ModulePath}
    {q : Request} (hq : q ∈ references own items) : q.token < b.tokens.length := by
  cases Grammar.spelledIn_of_mem_requests hitems (mem_of_mem_asked hq) with
  | imports ht | submodule ht | name ht => exact (List.getElem?_eq_some_iff.mp ht).1

/-- Linking asks for positions of tokens of the buffer, and keeps the items to these. -/
theorem linkModule_inside {flat : List Item}
    (hnormalized : ControlFlow.normalize (ShortCircuit.lowerItems items).1 = .ok flat)
    (hflat : ∀ i ∈ flat, i.WellFormed (· < b.tokens.length)) (own : ModulePath)
    (require : ModulePath → Position → Compile Unit) (r : Registry) :
    match linkModule ⟨own, b, require⟩ flat r with
    | .ok m r' => Site.Granted ⟨own, b, require⟩ (references own items) r r' ∧ b.Holds m.items
    | .error d r' =>
      Site.Refused ⟨own, b, require⟩ (· < b.tokens.length) (references own items) r d r' := by
  have hreferences := references_of_normalize hnormalized own
  split
  · next m r' hlink =>
    obtain ⟨hgranted, -, -, hm⟩ := linkModule_granted hflat hlink
    rw [hreferences] at hgranted
    exact ⟨hgranted, Token.Buffer.holds_of_wellFormed hm⟩
  · next d r' hlink =>
    have hrefused := linkModule_refused hflat hlink
    rwa [hreferences] at hrefused

theorem stagesInside_of_scan (h : Token.Buffer.scan file text = .ok b) : StagesInside b := by
  have hread := Token.Buffer.wellFormed_items h
  have hparsed : ∀ {items}, Grammar.items b.tokens = .ok items →
      ∀ i ∈ items, i.WellFormed (· < b.tokens.length) := by
    intro items hitems
    rwa [hitems] at hread
  have hlowered : ∀ {items}, Grammar.items b.tokens = .ok items →
      ∀ i ∈ (ShortCircuit.lowerItems items).1, i.WellFormed (· < b.tokens.length) :=
    fun hitems => ShortCircuit.wellFormed_lowerItems (hparsed hitems)
  refine ⟨Token.Buffer.holdsResult_of_wellFormed hread, fun hitems => ?_, fun hitems => ?_,
    fun hitems _ _ hq => token_lt_of_mem_references hitems hq, fun hitems hnormalized => ?_⟩
  · exact Token.Buffer.holds_of_wellFormed (hlowered hitems)
  · exact Token.Buffer.holdsResult_of_wellFormed <|
      ControlFlow.wellFormed_normalize (hlowered hitems)
  · exact linkModule_inside hnormalized (wellFormed_of_normalize hnormalized (hlowered hitems))

namespace Registry.HoldsTokens

theorem empty : Registry.empty.HoldsTokens := nofun

theorem register (hr : r.HoldsTokens) (path : ModulePath) (source : Source) :
    (r.register path source).HoldsTokens :=
  forall_search?_register hr nofun

theorem start (hr : r.HoldsTokens) (hs : r.search? path = some f) : (r.start path).HoldsTokens :=
  forall_search?_update hr File.path_start hs (hr path f hs)

theorem finish (hr : r.HoldsTokens) (hs : r.search? path = some f)
    (hscan : Token.Buffer.scan f.name f.text = .ok buffer) (hm : buffer.Holds m.items) :
    (r.finish path buffer m).HoldsTokens := by
  refine forall_search?_update hr (fun f => f.path_finish buffer m) hs ?_
  rintro _ ⟨⟩
  exact ⟨buffer, rfl, hscan, hm⟩

end Registry.HoldsTokens

theorem Offers.holdsTokens (hoffers : Offers sources path r f r₁) (hr : r.HoldsTokens) :
    r₁.HoldsTokens := by
  cases hoffers with
  | registered found ready => exact hr
  | loaded unknown load => exact hr.register _ _

/-- What asking keeps, all requests keep that are granted. -/
theorem Site.Granted.keeps {I : Registry → Prop}
    (hsite : ∀ path position r, I r → I (remaining (site.require path position r)))
    (h : site.Granted qs r r') (hr : I r) : I r' := by
  induction h with
  | nil => exact hr
  | @cons q _ r _ _ hq _ ih =>
    have hfirst := hsite q.target (site.buffer.position q.token) r hr
    rw [hq] at hfirst
    exact ih hfirst

/-- What asking keeps, a failure while requests are made keeps too. -/
theorem Site.Refused.keeps {I : Registry → Prop} {T : Nat → Prop}
    (hsite : ∀ path position r, I r → I (remaining (site.require path position r)))
    (h : site.Refused T qs r d r') (hr : I r) : I r' := by
  induction h with
  | own => exact hr
  | @refused q _ r _ _ hq =>
    have hlast := hsite q.target (site.buffer.position q.token) r hr
    rwa [hq] at hlast
  | @granted q _ r _ _ _ hq _ ih =>
    have hfirst := hsite q.target (site.buffer.position q.token) r hr
    rw [hq] at hfirst
    exact ih hfirst

/-- What compiling an offered module leads to, asking for a module leads to, if it held before. -/
theorem requireWith_keeps {I : Registry → Prop} {compile : ModulePath → Compile Unit}
    (hcompile : ∀ f r₁, Offers sources path r f r₁ → I (remaining (compile path r₁))) (hr : I r) :
    I (remaining (requireWith sources compile path position r)) := by
  cases h : requireWith sources compile path position r with
  | ok _ r' =>
    obtain ⟨-, -, -, rfl⟩ | ⟨f, r₁, hoffers, hrun⟩ := requireWith_eq_ok h
    · exact hr
    · have hdone := hcompile f r₁ hoffers
      rwa [hrun] at hdone
  | error d r' =>
    obtain ⟨f, -, -, -, rfl⟩ | ⟨-, -, -, rfl⟩ | ⟨f, r₁, hoffers, hrun⟩ := requireWith_eq_error h
    · exact hr
    · exact hr
    · have hdone := hcompile f r₁ hoffers
      rwa [hrun] at hdone

theorem requireFrom_holdsTokens (hr : r.HoldsTokens) :
    (remaining (requireFrom sources depth path position r)).HoldsTokens := by
  induction depth generalizing path position r with
  | zero => exact requireWith_keeps (fun _ _ hoffers => hoffers.holdsTokens hr) hr
  | succ depth ih =>
    refine requireWith_keeps (fun f r₁ hoffers => ?_) hr
    have hstart : (r₁.start path).HoldsTokens :=
      (hoffers.holdsTokens hr).start hoffers.search?.1
    cases h : compileModule (requireFrom sources depth) path r₁ with
    | ok _ r' =>
      obtain ⟨buffer, items, m, r₂, hparsed, hgranted, -, -, hitems, rfl⟩ :=
        compileModule_eq_ok hoffers.search?.1 h
      obtain ⟨order, hdone⟩ := hgranted.completes requireFrom_completes
      exact (hgranted.keeps (fun _ _ _ => ih) hstart).finish (hoffers.search?_of_grows hdone.grows)
        (Source.parse?_eq_some.mp hparsed).1 (Token.Buffer.holds_of_wellFormed hitems)
    | error d r' =>
      obtain ⟨-, rfl⟩ | ⟨buffer, items, flat, -, -, -, hrefused⟩ :=
        compileModule_eq_error hoffers.search?.1 h
      · exact hstart
      · exact hrefused.keeps (fun _ _ _ => ih) hstart

theorem Call.holdsTokens (call : Call) (hr : r.HoldsTokens) :
    (call.filesAfter sources r).HoldsTokens := by
  cases call with
  | register path source => exact hr.register path source
  | compileEntry | require => exact requireFrom_holdsTokens hr

theorem filesAfter_holdsTokens (hr : r.HoldsTokens) (calls : List (Sources × Call)) :
    (filesAfter r calls).HoldsTokens := by
  induction calls generalizing r with
  | nil => exact hr
  | cons call rest ih => exact ih (call.2.holdsTokens hr)

/-- The files can be kept with an index, which never fails and never leads beyond them. -/
def Registry.IndexInside (r : Registry) : Prop :=
  ∃ t : IndexedFiles, t.Keeps r ∧ t.files = r.files ∧
    ∀ path, (∀ i, t.index.lookup path = some i → i < t.files.length) ∧
      t.search? path = some (r.search? path)

theorem Registry.Steps.indexInside (h : Registry.empty.Steps r) : r.IndexInside := by
  obtain ⟨t, hkeeps⟩ := h.exists_keeps
  have hrepresents := hkeeps.represents
  exact ⟨t, hkeeps, hrepresents.files, fun path =>
    ⟨fun _ hi => hrepresents.lt_length hi, hrepresents.search?_eq path⟩⟩

/-- **No index is out of bounds.** The tokens of a file of less than 2^32 bytes can be numbered with
32 bits. Reading stays among them, and items refer to no others at any stage; nor do those of any
module that calls on a new compiler have finished. Operands that are kept as ranges of an expression
lie in it whenever they are cut out, so that lowering and flattening with ranges never fail. And
however files are registered and changed, no lookup by index leads beyond them. -/
theorem indices_inBounds (hscan : Token.Buffer.scan file text = .ok b)
    (hsize : text.utf8ByteSize < UInt32.size) :
    (b.tokens.length ≤ UInt32.size ∧ b.ReadsInside ∧ StagesInside b) ∧
    (∀ e, ShortCircuit.rewriteRanges e = some (ShortCircuit.rewriteOnce e)) ∧
    (∀ depth e, ControlFlow.hoistRanges depth [] [] e =
      OptionT.lift (ControlFlow.hoistFrom depth [] e)) ∧
    (∀ calls, (filesAfter .empty calls).HoldsTokens ∧
      Registry.empty.Steps (filesAfter .empty calls)) ∧
    ∀ r, Registry.empty.Steps r → r.IndexInside := by
  have hcount := Token.Buffer.length_scan_le hscan
  refine ⟨⟨by omega, Token.Buffer.readsInside_of_scan hscan, stagesInside_of_scan hscan⟩,
    ShortCircuit.rewriteRanges_eq, fun depth e => ControlFlow.hoistRanges_rangesOf depth [] e,
    fun calls => ⟨filesAfter_holdsTokens .empty calls, filesAfter_steps .empty calls⟩,
    fun r => Registry.Steps.indexInside⟩

/-- A text on which all stages have something to do. -/
theorem indices_inBounds_spilledOperands :
    ∃ b items, spilledOperands.parse? = some (b, items) ∧ b.tokens.length = 72 ∧
      spilledOperands.text.utf8ByteSize < UInt32.size ∧
      (b.tokens.length ≤ UInt32.size ∧ b.ReadsInside ∧ StagesInside b) ∧
      (∀ e, ShortCircuit.rewriteRanges e = some (ShortCircuit.rewriteOnce e)) ∧
      (∀ depth e, ControlFlow.hoistRanges depth [] [] e =
        OptionT.lift (ControlFlow.hoistFrom depth [] e)) ∧
      (∀ calls, (filesAfter .empty calls).HoldsTokens ∧
        Registry.empty.Steps (filesAfter .empty calls)) ∧
      ∀ r, Registry.empty.Steps r → r.IndexInside := by
  have hcount : (spilledOperands.parse?.map fun p => p.1.tokens.length) = some 72 := by
    decide +kernel
  have hsize : spilledOperands.text.utf8ByteSize < UInt32.size := by decide +kernel
  obtain ⟨⟨b, items⟩, hparse, hlength⟩ := Option.map_eq_some_iff.mp hcount
  exact ⟨b, items, hparse, hlength, hsize,
    indices_inBounds (Source.parse?_eq_some.mp hparse).1 hsize⟩

end Compilation

end FrontEnd
