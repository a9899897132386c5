import FrontEnd.Diagnostic.Basic
import FrontEnd.Tree.Basic

/-!
# Emitting statements

A computation that writes statements in front of what it is working on, numbers
temporary variables, and may end with a fault. What it has written before a fault is
kept, and so is the number of temporaries, which are never used again.
-/

namespace FrontEnd.ControlFlow

/-- The outcome of a computation: a result or a fault, the statements written, and the number of
temporaries handed out so far. -/
structure Emission (α : Type) where
  result : Except Fault α
  block : Block
  temps : Nat

/-- A computation that starts with a number of temporaries handed out. -/
def Emit (α : Type) : Type := Nat → Emission α

namespace Emit

/-- Runs a computation with a number of temporaries handed out. -/
def run {α : Type} (x : Emit α) (temps : Nat) : Emission α := x temps

instance : Monad Emit where
  pure a := fun temps => ⟨.ok a, [], temps⟩
  bind x f := fun temps =>
    match x temps with
    | ⟨.error fault, block, temps⟩ => ⟨.error fault, block, temps⟩
    | ⟨.ok a, block, temps⟩ =>
      match f a temps with
      | ⟨result, more, temps⟩ => ⟨result, block ++ more, temps⟩

/-- Ends with a fault. -/
def fail {α : Type} (fault : Fault) : Emit α := fun temps => ⟨.error fault, [], temps⟩

/-- Writes a statement. -/
def emit (s : Statement) : Emit Unit := fun temps => ⟨.ok (), [s], temps⟩

/-- Gives the statements that a computation writes instead of writing them. On a fault they are
lost. -/
def capture (x : Emit Unit) : Emit Block := fun temps =>
  match x temps with
  | ⟨.error fault, _, temps⟩ => ⟨.error fault, [], temps⟩
  | ⟨.ok (), block, temps⟩ => ⟨.ok block, [], temps⟩

/-- The character that the name of every temporary starts with. No source can write such a name. -/
def temporaryMark : Char := '$'

/-- The name of the temporary with a given number. -/
def temporaryName (number : Nat) : String :=
  String.singleton temporaryMark ++ toString number

/-- Hands out a temporary. -/
def fresh : Emit String := fun temps => ⟨.ok (temporaryName temps), [], temps + 1⟩

@[simp]
theorem run_pure {α : Type} (a : α) (temps : Nat) :
    (pure a : Emit α).run temps = ⟨.ok a, [], temps⟩ := rfl

@[simp]
theorem run_fail {α : Type} (fault : Fault) (temps : Nat) :
    (fail fault : Emit α).run temps = ⟨.error fault, [], temps⟩ := rfl

@[simp]
theorem run_emit (s : Statement) (temps : Nat) : (emit s).run temps = ⟨.ok (), [s], temps⟩ := rfl

@[simp]
theorem run_fresh (temps : Nat) :
    fresh.run temps = ⟨.ok (temporaryName temps), [], temps + 1⟩ := rfl

/-- A computation goes on from a result, and what it writes comes after what was written. -/
theorem run_bind_ok {α β : Type} {x : Emit α} {a : α} {block : Block} {temps mid : Nat}
    (h : x.run temps = ⟨.ok a, block, mid⟩) (f : α → Emit β) :
    (x >>= f).run temps =
      ⟨((f a).run mid).result, block ++ ((f a).run mid).block, ((f a).run mid).temps⟩ := by
  change x temps = _ at h
  simp [run, bind, h]

/-- A computation ends with its first fault. -/
theorem run_bind_error {α β : Type} {x : Emit α} {fault : Fault} {block : Block} {temps mid : Nat}
    (h : x.run temps = ⟨.error fault, block, mid⟩) (f : α → Emit β) :
    (x >>= f).run temps = ⟨.error fault, block, mid⟩ := by
  change x temps = _ at h
  simp [run, bind, h]

/-- Computations that run alike are the same. -/
theorem ext {α : Type} {x y : Emit α} (h : ∀ temps, x.run temps = y.run temps) : x = y := funext h

/-- What is written does not depend on how steps are bracketed. -/
instance : LawfulMonad Emit := .mk' Emit
  (by
    intro α x
    refine ext fun temps => ?_
    change (x >>= fun a => pure a).run temps = _
    rcases h : x.run temps with ⟨fault | a, block, mid⟩
    · rw [run_bind_error h]
    · rw [run_bind_ok h]
      simp)
  (by
    intro α β a f
    refine ext fun temps => ?_
    rw [run_bind_ok (run_pure a temps)]
    simp)
  (by
    intro α β γ x f g
    refine ext fun temps => ?_
    rcases h : x.run temps with ⟨fault | a, block, mid⟩
    · rw [run_bind_error (run_bind_error h f), run_bind_error h]
    · have hf := run_bind_ok h f
      have hfg := run_bind_ok h fun a => f a >>= g
      rcases k : (f a).run mid with ⟨fault | b, more, last⟩
      · rw [k] at hf
        rw [run_bind_error k] at hfg
        rw [run_bind_error hf, hfg]
      · rw [k] at hf
        rw [run_bind_ok k] at hfg
        rw [run_bind_ok hf, hfg, List.append_assoc])

end Emit

/-- A node that reads a temporary. -/
def isTemporary : Node → Bool
  | .var _ [name] _ => name.toList.head? == some Emit.temporaryMark
  | _ => false

end FrontEnd.ControlFlow
