import Mathlib

/-!
# Programs that make calls

A program is a tree: it has returned, or it has run into undefined behaviour, or it makes a call and
goes on with the answer. `run` executes a program alone against an answering machine;
`RadosGateway.Base.Pool` lets several programs share one.
-/

inductive Proc (C : Type) (A : C → Type) (α : Type) where
  | done (a : α)
  | call (c : C) (k : A c → Proc C A α)
  | undef

namespace Proc

variable {C : Type} {A : C → Type} {α β γ σ : Type}

protected def bind : Proc C A α → (α → Proc C A β) → Proc C A β
  | done a, f => f a
  | call c k, f => call c fun a => (k a).bind f
  | undef, _ => undef

instance : Monad (Proc C A) where
  pure := done
  bind := Proc.bind

def perform (c : C) : Proc C A (A c) := call c done

@[simp]
theorem done_bind (a : α) (f : α → Proc C A β) : (done a >>= f) = f a := rfl

@[simp]
theorem call_bind (c : C) (k : A c → Proc C A α) (f : α → Proc C A β) :
    (call c k >>= f) = call c fun a => k a >>= f := rfl

@[simp]
theorem undef_bind (f : α → Proc C A β) : ((undef : Proc C A α) >>= f) = undef := rfl

theorem perform_bind (c : C) (f : A c → Proc C A β) : (perform c >>= f) = call c f := rfl

theorem bind_done (p : Proc C A α) : (p >>= done) = p := by
  induction p with
  | done a => rfl
  | call c k ih =>
    rw [call_bind]
    exact congrArg (call c) (funext ih)
  | undef => rfl

protected theorem bind_assoc (p : Proc C A α) (f : α → Proc C A β) (g : β → Proc C A γ) :
    (p >>= f >>= g) = p >>= fun a => f a >>= g := by
  induction p with
  | done a => rfl
  | call c k ih =>
    simp only [call_bind]
    exact congrArg (call c) (funext ih)
  | undef => rfl

instance : LawfulMonad (Proc C A) :=
  LawfulMonad.mk' (Proc C A)
    (fun p => bind_done p)
    (fun _ _ => rfl)
    (fun p f g => Proc.bind_assoc p f g)

def run (h : (c : C) → σ → A c × σ) : Proc C A α → σ → Option (α × σ)
  | done a, s => some (a, s)
  | call c k, s => (k (h c s).1).run h (h c s).2
  | undef, _ => none

variable (h : (c : C) → σ → A c × σ)

@[simp]
theorem run_done (a : α) (s : σ) : (done a : Proc C A α).run h s = some (a, s) := rfl

@[simp]
theorem run_pure (a : α) (s : σ) : (pure a : Proc C A α).run h s = some (a, s) := rfl

@[simp]
theorem run_call (c : C) (k : A c → Proc C A α) (s : σ) :
    (call c k).run h s = (k (h c s).1).run h (h c s).2 := rfl

@[simp]
theorem run_undef (s : σ) : (undef : Proc C A α).run h s = none := rfl

@[simp]
theorem run_perform (c : C) (s : σ) : (perform c : Proc C A (A c)).run h s = some (h c s) := rfl

theorem run_bind (p : Proc C A α) (f : α → Proc C A β) (s : σ) :
    (p >>= f).run h s = (p.run h s).bind fun r => (f r.1).run h r.2 := by
  induction p generalizing s with
  | done a => rfl
  | call c k ih => exact ih _ _
  | undef => rfl

theorem run_bind_of_some {p : Proc C A α} {s s' : σ} {a : α} (hp : p.run h s = some (a, s'))
    (f : α → Proc C A β) : (p >>= f).run h s = (f a).run h s' := by
  rw [run_bind, hp]
  rfl

theorem run_map {τ : Type} {h' : (c : C) → τ → A c × τ} {φ : σ → τ}
    (hφ : ∀ c s, h' c (φ s) = ((h c s).1, φ (h c s).2)) (p : Proc C A α) (s : σ) :
    p.run h' (φ s) = (p.run h s).map (Prod.map id φ) := by
  induction p generalizing s with
  | done a => rfl
  | call c k ih =>
    rw [run_call, run_call, hφ]
    exact ih _ _
  | undef => rfl

end Proc
