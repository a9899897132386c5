import FrontEnd.Proofs.ControlFlow.Temporaries
import FrontEnd.Proofs.Meaning.Refinement

/-!
# Runs that follow other runs

A run with temporaries follows a run without them if it comes to the same store and ends
in the same way, and leaves the temporaries below a bound as they are. Where the other
run has only given a value, it may also have ended early because of that value: it
returns it, or leaves a loop whose condition it is.
-/

namespace FrontEnd.ControlFlow

open Meaning

variable {α σ β γ β' γ' : Type}

/-- The second result follows the first one, from the temporaries `t`. `post` is what holds where
both have gone on, and `early` what the second one may end with where only the first has. -/
inductive Follows (bound : Nat) (t : Temporaries α) (post : β → γ → Temporaries α → Prop)
    (early : β → Ending α → Prop) :
    EStateM.Result (Ending α) σ β → EStateM.Result (Ending α) (σ × Temporaries α) γ → Prop
  | fault (s : σ) (r : EStateM.Result (Ending α) (σ × Temporaries α) γ) :
    Follows bound t post early (.error .fault s) r
  | ok {a : β} {b : γ} {t' : Temporaries α} (s : σ) (hk : Keeps bound t t') (h : post a b t') :
    Follows bound t post early (.ok a s) (.ok b (s, t'))
  | early {a : β} {e : Ending α} {t' : Temporaries α} (s : σ) (hk : Keeps bound t t')
      (h : early a e) : Follows bound t post early (.ok a s) (.error e (s, t'))
  | error {t' : Temporaries α} (e : Ending α) (s : σ) (hk : Keeps bound t t') :
    Follows bound t post early (.error e s) (.error e (s, t'))

/-- There is no reason to end early. -/
def Never (_ : β) (_ : Ending α) : Prop := False

namespace Follows

variable {bound bound' : Nat} {t t' : Temporaries α} {post post' : β → γ → Temporaries α → Prop}
  {early early' : β → Ending α → Prop} {r : EStateM.Result (Ending α) σ β}
  {r' : EStateM.Result (Ending α) (σ × Temporaries α) γ}

/-- Less may be said, and a run that starts later may be seen from an earlier start. -/
theorem weaken (h : Follows bound' t' post early r r') (hb : bound ≤ bound')
    (hk : Keeps bound t t') (hpost : ∀ a b t'', Keeps bound' t' t'' → post a b t'' → post' a b t'')
    (hearly : ∀ a e, early a e → early' a e) : Follows bound t post' early' r r' := by
  cases h with
  | fault s r => exact .fault s _
  | ok s hk' h => exact .ok s (hk.trans (hk'.mono hb)) (hpost _ _ _ hk' h)
  | early s hk' h => exact .early s (hk.trans (hk'.mono hb)) (hearly _ _ h)
  | error e s hk' => exact .error e s (hk.trans (hk'.mono hb))

/-- A run that starts later may be seen from an earlier start. -/
theorem since (h : Follows bound' t' post early r r') (hb : bound ≤ bound')
    (hk : Keeps bound t t') : Follows bound t post early r r' :=
  h.weaken hb hk (fun _ _ _ _ hp => hp) fun _ _ he => he

theorem imp (h : Follows bound t post early r r') (hpost : ∀ a b t', post a b t' → post' a b t')
    (hearly : ∀ a e, early a e → early' a e) : Follows bound t post' early' r r' :=
  h.weaken (Nat.le_refl _) (Keeps.refl bound t) (fun a b t' _ => hpost a b t') hearly

/-- Two runs go on from where the second one has followed the first one. -/
theorem bind_early {x : Run α σ β} {y : Run α (σ × Temporaries α) γ} {f : β → Run α σ β'}
    {g : γ → Run α (σ × Temporaries α) γ'} {post' : β' → γ' → Temporaries α → Prop}
    {early' : β' → Ending α → Prop} {s : σ}
    (h : Follows bound t post early (x s) (y (s, t)))
    (hok : ∀ a b s' t', Keeps bound t t' → post a b t' →
      Follows bound t post' early' (f a s') (g b (s', t')))
    (hearly : ∀ a e s' t', Keeps bound t t' → early a e →
      Follows bound t post' early' (f a s') (.error e (s', t'))) :
    Follows bound t post' early' ((x >>= f) s) ((y >>= g) (s, t)) := by
  rw [bind_apply, bind_apply]
  generalize x s = r at h
  generalize y (s, t) = r' at h
  cases h with
  | fault s' r' => exact .fault s' _
  | ok s' hk hp => exact hok _ _ s' _ hk hp
  | early s' hk he => exact hearly _ _ s' _ hk he
  | error e s' hk => exact .error e s' hk

theorem bind {x : Run α σ β} {y : Run α (σ × Temporaries α) γ} {f : β → Run α σ β'}
    {g : γ → Run α (σ × Temporaries α) γ'} {post' : β' → γ' → Temporaries α → Prop}
    {early' : β' → Ending α → Prop} {s : σ}
    (h : Follows bound t post Never (x s) (y (s, t)))
    (hok : ∀ a b s' t', Keeps bound t t' → post a b t' →
      Follows bound t post' early' (f a s') (g b (s', t'))) :
    Follows bound t post' early' ((x >>= f) s) ((y >>= g) (s, t)) :=
  h.bind_early hok fun _ _ _ _ _ he => he.elim

/-- Nothing but the value changes where the first run only goes on to compute with it. -/
theorem map_left {x : Run α σ β} {f : β → β'} {post : β' → γ → Temporaries α → Prop}
    {early : β' → Ending α → Prop} {s : σ}
    (h : Follows bound t (fun a b t' => post (f a) b t') (fun a e => early (f a) e) (x s) r') :
    Follows bound t post early ((x >>= fun a => pure (f a)) s) r' := by
  rw [bind_apply]
  generalize x s = r at h
  cases h with
  | fault s r => exact .fault s _
  | ok s hk h => exact .ok s hk h
  | early s hk h => exact .early s hk h
  | error e s hk => exact .error e s hk

/-- Values that are not used need not be the same. -/
theorem discard {x : Run α σ β} {y : Run α (σ × Temporaries α) γ} {s : σ}
    (h : Follows bound t (fun _ _ _ => True) Never (x s) (y (s, t))) :
    Follows bound t (fun _ _ _ => True) Never (Functor.discard x s) (Functor.discard y (s, t)) := by
  change Follows bound t _ _ (((fun _ => ()) <$> x) s) (((fun _ => ()) <$> y) (s, t))
  rw [map_eq_pure_bind, map_eq_pure_bind]
  exact h.bind fun _ _ s' _ hk _ => .ok s' hk trivial

/-- What only reads temporaries follows what it does with those that it starts from. -/
theorem of_quiet {y : Run α (σ × Temporaries α) β} (h : Quiet bound' y) (s : σ) :
    Follows bound t (fun a b t' => a = b ∧ t' = t) Never (given t y s) (y (s, t)) := by
  rw [h t t (Keeps.refl _ t) s]
  cases given t y s with
  | ok a s' => exact .ok s' (Keeps.refl _ t) ⟨rfl, rfl⟩
  | error e s' => exact .error e s' (Keeps.refl _ t)

/-- The second run ends with a change of its store, after which it has the store of the first. -/
theorem of_modify {f : σ × Temporaries α → σ × Temporaries α} {a : β} {b : γ} {s s' : σ}
    {t₀ : Temporaries α} (hf : f (s, t₀) = (s', t')) (hk : Keeps bound t t') (h : post a b t') :
    Follows bound t post early (.ok a s')
      ((do modify f; return b : Run α (σ × Temporaries α) γ) (s, t₀)) := by
  change Follows _ _ _ _ _ (EStateM.Result.ok b (f (s, t₀)))
  rw [hf]
  exact .ok s' hk h

/-- A turn that the second run leaves by an exit has ended with a condition that does not hold. -/
theorem endTurn {x : Run α σ Bool} {y : Run α (σ × Temporaries α) Bool} {s : σ}
    (h : Follows bound t (fun a b _ => a = b) (fun a e => a = false ∧ e = .exit 1)
      (x s) (y (s, t))) :
    Follows bound t (fun a b _ => a = b) Never (Meaning.endTurn x s) (Meaning.endTurn y (s, t)) := by
  rw [Meaning.endTurn, Meaning.endTurn]
  generalize x s = r at h
  generalize y (s, t) = r' at h
  cases h with
  | fault s' r' => exact .fault s' _
  | ok s' hk hp => exact .ok s' hk hp
  | early s' hk he =>
    obtain ⟨rfl, rfl⟩ := he
    exact .ok s' hk rfl
  | error e s' hk =>
    cases e with
    | exit loops =>
      dsimp only
      split
      · exact .ok s' hk rfl
      · exact .error _ s' hk
    | next => exact .ok s' hk rfl
    | ret | halted | exhausted | fault => exact .error _ s' hk

/-- Loops whose turns follow each other do so for every number of turns. -/
theorem loop {condition body : Run α σ (Value α)}
    {condition' body' : Run α (σ × Temporaries α) (Value α)}
    (h : ∀ s t, Follows bound t (fun a b _ => a = b) Never (turn condition body s)
      (turn condition' body' (s, t))) (turns : Nat) (s : σ) (t : Temporaries α) :
    Follows bound t (fun _ _ _ => True) Never (Meaning.loop turns condition body s)
      (Meaning.loop turns condition' body' (s, t)) := by
  induction turns generalizing s t with
  | zero => exact .error _ s (Keeps.refl bound t)
  | succ turns ih =>
    rw [Meaning.loop, Meaning.loop]
    refine (h s t).bind ?_
    rintro again _ s' t' hk rfl
    cases again with
    | true => exact (ih s' t').since (Nat.le_refl _) hk
    | false => exact .ok s' hk trivial

/-- A run that always has the same ending, whether it goes on or not, ends like the other one. -/
theorem eq_attach {y : EStateM.Result (Ending α) (σ × Temporaries α) γ}
    {r : EStateM.Result (Ending α) σ γ} (h : Follows bound t (fun a b _ => a = b) Never r y)
    (hf : ¬ IsFault r) : ∃ t', y = attach t' r := by
  cases h with
  | fault s r' => exact absurd trivial hf
  | ok s hk hp =>
    subst hp
    exact ⟨_, rfl⟩
  | early s hk he => exact he.elim
  | error e s hk => exact ⟨_, rfl⟩

end Follows

end FrontEnd.ControlFlow
