import Mathlib

/-!
# Loops

A loop takes turns: each gives the state of the next turn, or ends the loop with a result. A loop
whose turns keep an invariant and make a number smaller ends, with what the last turn says of the
result. -/

namespace Loop

variable {σ α : Type*}

def run (turn : σ → σ ⊕ α) : Nat → σ → Option α
  | 0, _ => none
  | n + 1, s =>
    match turn s with
    | .inl s' => run turn n s'
    | .inr a => some a

def Gives (f : Nat → Option α) (a : α) : Prop := ∃ n, ∀ m, n ≤ m → f m = some a

variable {turn : σ → σ ⊕ α} {s s' : σ} {a b : α}

theorem Gives.unique {f : Nat → Option α} (ha : Gives f a) (hb : Gives f b) : a = b := by
  obtain ⟨n, hn⟩ := ha
  obtain ⟨m, hm⟩ := hb
  apply Option.some.inj
  rw [← hn (max n m) (Nat.le_max_left n m), hm (max n m) (Nat.le_max_right n m)]

theorem gives_const (a : α) : Gives (fun _ => some a) a := ⟨0, fun _ _ => rfl⟩

theorem Gives.bind {ε α β : Type} {f : Nat → ExceptT ε Option α} {g : Nat → α → ExceptT ε Option β}
    {a : α}
    {b : Except ε β} (hf : Gives (fun n => (f n).run) (.ok a))
    (hg : Gives (fun n => (g n a).run) b) :
    Gives (fun n => (f n >>= g n).run) b := by
  obtain ⟨n, hn⟩ := hf
  obtain ⟨m, hm⟩ := hg
  refine ⟨max n m, fun k hk => ?_⟩
  have hfk : (f k).run = some (.ok a) := hn k (le_of_max_le_left hk)
  dsimp only
  rw [ExceptT.run_bind, hfk]
  exact hm k (le_of_max_le_right hk)

theorem gives_run_inr (h : turn s = .inr a) : Gives (run turn · s) a := by
  refine ⟨1, fun m hm => ?_⟩
  obtain ⟨m, rfl⟩ := Nat.exists_eq_add_of_le' hm
  dsimp only
  rw [run, h]

theorem gives_run_inl (h : turn s = .inl s') (ha : Gives (run turn · s') a) :
    Gives (run turn · s) a := by
  obtain ⟨n, hn⟩ := ha
  refine ⟨n + 1, fun m hm => ?_⟩
  obtain ⟨m, rfl⟩ := Nat.exists_eq_add_of_le' (Nat.le_trans (Nat.le_add_left 1 n) hm)
  dsimp only
  rw [run, h]
  exact hn m (Nat.le_of_succ_le_succ hm)

def Keeps (turn : σ → σ ⊕ α) (I : σ → Prop) (Q : α → Prop) (measure : σ → Nat) : Prop :=
  ∀ s, I s → (∃ s', turn s = .inl s' ∧ I s' ∧ measure s' < measure s) ∨ ∃ a, turn s = .inr a ∧ Q a

theorem Keeps.exists_gives {I : σ → Prop} {Q : α → Prop} {measure : σ → Nat}
    (h : Keeps turn I Q measure)
    (hs : I s) : ∃ a, Gives (run turn · s) a ∧ Q a := by
  induction hn : measure s using Nat.strong_induction_on generalizing s with
  | _ n ih =>
    cases h s hs with
    | inl hnext =>
      obtain ⟨s', hturn, hs', hlt⟩ := hnext
      obtain ⟨a, ha, hq⟩ := ih (measure s') (hn ▸ hlt) hs' rfl
      exact ⟨a, gives_run_inl hturn ha, hq⟩
    | inr hlast =>
      obtain ⟨a, hturn, hq⟩ := hlast
      exact ⟨a, gives_run_inr hturn, hq⟩

end Loop
