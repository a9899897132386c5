import FrontEnd.Compilation.Sources
import FrontEnd.Grammar.Item
import FrontEnd.Proofs.Tree.Items
import FrontEnd.Proofs.Tree.Mentions
import FrontEnd.Token.Scan

/-!
# References between modules

What a module refers to can be read off its text: its imports and submodules in the
order of its items, and then the leading segments of the dotted names in its
functions. The latter count only where they are no alias yet, and become one then.
-/

namespace FrontEnd

open Text (Position)

/-- A module that is asked for at a token. -/
structure Request where
  token : Nat
  target : ModulePath
  /-- The alias under which the module can be reached from then on. -/
  handle : ModulePath
  /-- Whether nothing is asked for if there is such an alias already. -/
  onDemand : Bool
  deriving DecidableEq, Repr

/-- The module that a dotted name leads to, unless its leading segments are an alias. -/
def DottedName.request (d : DottedName) : Request :=
  ⟨d.token, ⟨d.path.dropLast⟩, ⟨d.path.dropLast⟩, true⟩

/-- What an item of the module `own` asks for where it is declared. -/
def Item.requests (own : ModulePath) : Item → List Request
  | imports i => [⟨i.token, i.target, i.target, false⟩]
  | submodule s => [⟨s.token, own.child s.name, .single s.name, false⟩]
  | _ => []

/-- What the body of an item asks for. -/
def Item.bodyRequests : Item → List Request
  | function f => (Block.dottedNames f.body).map DottedName.request
  | _ => []

/-- What the items of the module `own` ask for, in order. -/
def requests (own : ModulePath) (items : List Item) : List Request :=
  items.flatMap (Item.requests own) ++ items.flatMap Item.bodyRequests

/-- What items ask for depends on the dotted names in their bodies alone. -/
theorem requests_congr {items items' : List Item}
    (h : List.Forall₂ (Item.Keeps Block.dottedNames) items items') (own : ModulePath) :
    requests own items' = requests own items := by
  have hitems : items'.flatMap (Item.requests own) = items.flatMap (Item.requests own) := by
    induction h with
    | nil => rfl
    | cons hi _ ih =>
      rw [List.flatMap_cons, List.flatMap_cons, ih]
      cases hi <;> rfl
  have hbodies : items'.flatMap Item.bodyRequests = items.flatMap Item.bodyRequests := by
    clear hitems
    induction h with
    | nil => rfl
    | cons hi _ ih =>
      rw [List.flatMap_cons, List.flatMap_cons, ih]
      cases hi with
      | function f h => rw [Item.bodyRequests, Item.bodyRequests, h]
      | other => rfl
  rw [requests, requests, hitems, hbodies]

/-- The requests that are really made, where some aliases are known from the start. -/
def asked (known : List ModulePath) : List Request → List Request
  | [] => []
  | q :: rest =>
    if q.onDemand ∧ q.handle ∈ known then asked known rest else q :: asked (q.handle :: known) rest

/-- The aliases that are known after some requests. -/
def knownAfter (known : List ModulePath) (qs : List Request) : List ModulePath :=
  ((asked known qs).map Request.handle).reverse ++ known

/-- The references of the module `own`. Only its own path is an alias from the start. -/
def references (own : ModulePath) (items : List Item) : List Request :=
  asked [own] (requests own items)

/-- The token at the place of a request says what is asked for: an `import` before the path of the
target, a `mod` before the name of a submodule, or a dotted name whose leading segments are the
path of the target. -/
inductive Request.SpelledIn (own : ModulePath) (tokens : List Token) : Request → Prop
  | imports {i : Nat} {t u : Token} {path : List String} (ht : tokens[i]? = some t)
    (hkw : t.shape = .keyword .importKw) (hu : tokens[i + 1]? = some u)
    (hpath : u.shape = .identifier path) : SpelledIn own tokens ⟨i, ⟨path⟩, ⟨path⟩, false⟩
  | submodule {i : Nat} {t u : Token} {path : List String} (ht : tokens[i]? = some t)
    (hkw : t.shape = .keyword .modKw) (hu : tokens[i + 1]? = some u)
    (hpath : u.shape = .identifier path) (hsimple : path.length = 1) :
    SpelledIn own tokens ⟨i, own.child u.text, .single u.text, false⟩
  | name {i : Nat} {t : Token} {path : List String} (ht : tokens[i]? = some t)
    (hpath : t.shape = .identifier path) (hdotted : 2 ≤ path.length) :
    SpelledIn own tokens ⟨i, ⟨path.dropLast⟩, ⟨path.dropLast⟩, true⟩

section asked

variable {known : List ModulePath} {q : Request} {qs qs' : List Request}

theorem asked_cons_of_known (h : q.onDemand = true ∧ q.handle ∈ known) :
    asked known (q :: qs) = asked known qs := by
  rw [asked, if_pos h]

theorem asked_cons_of_not_known (h : ¬(q.onDemand = true ∧ q.handle ∈ known)) :
    asked known (q :: qs) = q :: asked (q.handle :: known) qs := by
  rw [asked, if_neg h]

theorem knownAfter_cons_of_not_known (h : ¬(q.onDemand = true ∧ q.handle ∈ known)) :
    knownAfter known (q :: qs) = knownAfter (q.handle :: known) qs := by
  simp [knownAfter, asked_cons_of_not_known h]

theorem asked_append :
    asked known (qs ++ qs') = asked known qs ++ asked (knownAfter known qs) qs' := by
  induction qs generalizing known with
  | nil => rfl
  | cons q rest ih =>
    by_cases h : q.onDemand = true ∧ q.handle ∈ known
    · rw [List.cons_append, asked_cons_of_known h, asked_cons_of_known h, ih, knownAfter, knownAfter,
        asked_cons_of_known h]
    · rw [List.cons_append, asked_cons_of_not_known h, asked_cons_of_not_known h,
        knownAfter_cons_of_not_known h, ih, List.cons_append]

theorem mem_of_mem_asked (h : q ∈ asked known qs) : q ∈ qs := by
  induction qs generalizing known with
  | nil => cases h
  | cons q' rest ih =>
    rw [asked] at h
    split at h
    · exact .tail q' (ih h)
    · rcases List.mem_cons.mp h with rfl | hrest
      · exact .head rest
      · exact .tail q' (ih hrest)

end asked

namespace Compilation

/-- The tokens and the items of a text, if it has a module's form. -/
def Source.parse? (s : Source) : Option (Token.Buffer × List Item) :=
  match Token.Buffer.scan s.name s.text with
  | .error _ => none
  | .ok buffer =>
    match Grammar.items buffer.tokens with
    | .error _ => none
    | .ok items => some (buffer, items)

theorem Source.parse?_eq_some {source : Source} {buffer : Token.Buffer} {items : List Item} :
    source.parse? = some (buffer, items) ↔
      Token.Buffer.scan source.name source.text = .ok buffer ∧
        Grammar.items buffer.tokens = .ok items := by
  constructor
  · intro h
    unfold Source.parse? at h
    split at h
    · cases h
    · next buffer' hscan =>
      split at h
      · cases h
      · next items' hitems =>
        cases h
        exact ⟨hscan, hitems⟩
  · rintro ⟨hbuffer, hitems⟩
    simp only [Source.parse?, hbuffer, hitems]

/-- The references of a module whose text is one of those given. -/
def referencesOf (load : ModulePath → Option Source) (own : ModulePath) : List Request :=
  match (load own).bind Source.parse? with
  | some (_, items) => references own items
  | none => []

/-- The modules that a module refers to, in order. -/
def targetsOf (load : ModulePath → Option Source) (own : ModulePath) : List ModulePath :=
  (referencesOf load own).map Request.target

/-- A module refers to another one. -/
def Refers (load : ModulePath → Option Source) (a b : ModulePath) : Prop := b ∈ targetsOf load a

/-- A reference of a module, with the place of the token that spells it in the module's file. -/
inductive RefersAt (load : ModulePath → Option Source) (own : ModulePath) :
    Request → Position → Prop
  | intro {source : Source} {buffer : Token.Buffer} {items : List Item} {q : Request}
    (hload : load own = some source) (hparse : source.parse? = some (buffer, items))
    (hq : q ∈ references own items) (hspelled : q.SpelledIn own buffer.tokens) :
    RefersAt load own q (buffer.position q.token)

variable {load : ModulePath → Option Source} {own : ModulePath} {source : Source}
  {buffer : Token.Buffer} {items : List Item}

theorem referencesOf_eq (hload : load own = some source)
    (hparse : source.parse? = some (buffer, items)) :
    referencesOf load own = references own items := by
  rw [referencesOf, hload, Option.bind_some, hparse]

theorem targetsOf_eq (hload : load own = some source)
    (hparse : source.parse? = some (buffer, items)) :
    targetsOf load own = (references own items).map Request.target := by
  rw [targetsOf, referencesOf_eq hload hparse]

theorem Refers.exists_load {b : ModulePath} (h : Refers load own b) :
    ∃ source, load own = some source := by
  cases hload : load own with
  | some source => exact ⟨source, rfl⟩
  | none =>
    rw [Refers, targetsOf, referencesOf, hload] at h
    cases h

theorem RefersAt.refers {q : Request} {p : Position} (h : RefersAt load own q p) :
    Refers load own q.target := by
  obtain ⟨hload, hparse, hq, -⟩ := h
  rw [Refers, targetsOf_eq hload hparse]
  exact List.mem_map_of_mem hq

end Compilation

end FrontEnd
