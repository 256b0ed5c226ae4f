import Mathlib

/-!
# Runs

A system takes one step after another, if it can. A run has the labels of its steps and a condition
that each of them meets; a property that such steps preserve holds in every state a run reaches. A
listing that asks for page after page is a run whose labels are the pages: it ends when a page does
not say where the next one starts. -/

namespace Transition

open List

variable {σ ι : Type*}

inductive Steps (step : σ → ι → Option σ) (ok : σ → ι → Prop) : σ → List ι → σ → Prop
  | nil (s : σ) : Steps step ok s [] s
  | cons {s s' s'' : σ} {i : ι} {is : List ι} (hok : ok s i) (hstep : step s i = some s')
      (hrest : Steps step ok s' is s'') : Steps step ok s (i :: is) s''

variable {step : σ → ι → Option σ} {ok : σ → ι → Prop}

theorem Steps.invariant {I : σ → Prop} {s s' : σ} {is : List ι} (h : Steps step ok s is s')
    (hinv : ∀ {s s' : σ} {i : ι}, I s → ok s i → step s i = some s' → I s') (hs : I s) : I s' := by
  induction h with
  | nil s => exact hs
  | cons hok hstep hrest ih => exact ih (hinv hs hok hstep)

theorem Steps.append {s s' s'' : σ} {is is' : List ι} (h : Steps step ok s is s')
    (h' : Steps step ok s' is' s'') : Steps step ok s (is ++ is') s'' := by
  induction h with
  | nil s => exact h'
  | cons hok hstep hrest ih => exact .cons hok hstep (ih h')

theorem Steps.single {s s' : σ} {i : ι} (hok : ok s i) (hstep : step s i = some s') :
    Steps step ok s [i] s' :=
  .cons hok hstep (.nil s')

theorem Steps.of_forall_mem {p : ι → Prop} {s s' : σ} {is : List ι} (h : Steps step ok s is s')
    (hp : ∀ i ∈ is, p i) : Steps step (fun s i => ok s i ∧ p i) s is s' := by
  induction h with
  | nil s => exact .nil s
  | cons hok hstep hrest ih =>
    obtain ⟨hi, his⟩ := forall_mem_cons.mp hp
    exact .cons ⟨hok, hi⟩ hstep (ih his)

theorem Steps.of_foldlM_of_forall_mem {p : ι → Prop} {s s' : σ} {is : List ι}
    (h : is.foldlM step s = some s')
    (hp : ∀ i ∈ is, p i) : Steps step (fun _ => p) s is s' := by
  induction is generalizing s with
  | nil =>
    obtain rfl := Option.some.inj h
    exact .nil s
  | cons i is ih =>
    obtain ⟨hi, his⟩ := forall_mem_cons.mp hp
    rw [foldlM_cons] at h
    obtain ⟨s₁, hstep, hrest⟩ := Option.bind_eq_some_iff.mp h
    exact .cons hi hstep (ih hrest his)

theorem Steps.of_foldlM [∀ s i, Decidable (ok s i)] {s s' : σ} {is : List ι}
    (h : is.foldlM (fun s i => if ok s i then step s i else none) s = some s') :
    Steps step ok s is s' := by
  induction is generalizing s with
  | nil =>
    obtain rfl := Option.some.inj h
    exact .nil s
  | cons i is ih =>
    rw [foldlM_cons] at h
    obtain ⟨s₁, hstep, hrest⟩ := Option.bind_eq_some_iff.mp h
    by_cases hok : ok s i
    · rw [if_pos hok] at hstep
      exact .cons hok hstep (ih hrest)
    · rw [if_neg hok] at hstep
      cases hstep

variable {ε : Type*} {ok : List ε → ε → Prop} {es : List ε} {e : ε}

def Recorded (ok : List ε → ε → Prop) (es : List ε) : Prop :=
  ∀ before e behind, es = before ++ e :: behind → ok before e

theorem recorded_nil : Recorded ok [] := fun _ _ _ h => absurd h (by simp)

theorem Recorded.concat (h : Recorded ok es) (he : ok es e) : Recorded ok (es ++ [e]) := by
  intro before e' behind heq
  rcases eq_nil_or_concat behind with rfl | ⟨behind, last, rfl⟩
  · obtain ⟨rfl, hlast⟩ := append_inj' heq rfl
    cases hlast
    exact he
  · rw [concat_eq_append, ← cons_append, ← append_assoc] at heq
    exact h _ _ _ (append_inj' heq rfl).1

end Transition

namespace Paging

variable {κ π : Type*}

inductive Pages (call : κ → π → Prop) (next : π → Option κ) : κ → List π → Prop
  | last {start : κ} {page : π} (hcall : call start page) (hnext : next page = none) :
      Pages call next start [page]
  | more {start start' : κ} {page : π} {pages : List π} (hcall : call start page)
      (hnext : next page = some start') (hrest : Pages call next start' pages) :
      Pages call next start (page :: pages)

variable {call : κ → π → Prop} {next : π → Option κ}

theorem Pages.eq_singleton {page : π} (hsame : ∀ start page', call start page' → page' = page)
    {start : κ} {pages : List π} (h : Pages call next start pages) :
    pages = [page] ∧ next page = none := by
  induction h with
  | last hcall hnext =>
    obtain rfl := hsame _ _ hcall
    exact ⟨rfl, hnext⟩
  | more hcall hnext _ ih =>
    obtain rfl := hsame _ _ hcall
    rw [ih.2] at hnext
    cases hnext

end Paging
