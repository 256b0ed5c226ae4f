import Mathlib

/-!
# Endless runs

What has to happen along an endless run, when some of its steps are taken again and again. A rank
that no step raises and that those steps lower brings about the goal.
-/

namespace Temporal

variable {fair P goal : ℕ → Prop} {rank : ℕ → ℕ} {n : ℕ}

theorem goal_or_fair (hfair : ∀ n, ∃ m ≥ n, fair m)
    (hstay : ∀ n, P n → goal n ∨ P (n + 1) ∧ rank (n + 1) ≤ rank n) (hn : P n) :
    ∃ m ≥ n, goal m ∨ fair m ∧ P m ∧ rank m ≤ rank n := by
  obtain ⟨m, hnm, hm⟩ := hfair n
  obtain ⟨d, rfl⟩ := Nat.exists_eq_add_of_le hnm
  induction d generalizing n with
  | zero => exact ⟨n, le_rfl, .inr ⟨hm, hn, le_rfl⟩⟩
  | succ d ih =>
    rcases hstay n hn with hgoal | ⟨hnext, hrank⟩
    · exact ⟨n, le_rfl, .inl hgoal⟩
    · obtain ⟨m, hle, hm⟩ := ih hnext (Nat.le_add_right _ _) (by rwa [add_assoc, add_comm 1 d])
      refine ⟨m, by omega, hm.imp_right ?_⟩
      rintro ⟨hfairm, hPm, hrankm⟩
      exact ⟨hfairm, hPm, hrankm.trans hrank⟩

theorem eventually_of_rank (P goal : ℕ → Prop) (rank : ℕ → ℕ) (hfair : ∀ n, ∃ m ≥ n, fair m)
    (hstay : ∀ n, P n → goal n ∨ P (n + 1) ∧ rank (n + 1) ≤ rank n)
    (hmove : ∀ n, P n → fair n → goal n ∨ P (n + 1) ∧ rank (n + 1) < rank n) (hn : P n) :
    ∃ m ≥ n, goal m := by
  induction hr : rank n using Nat.strong_induction_on generalizing n with
  | _ r ih =>
    obtain ⟨m, hnm, hgoal | ⟨hm, hPm, hrank⟩⟩ := goal_or_fair hfair hstay hn
    · exact ⟨m, hnm, hgoal⟩
    · rcases hmove m hPm hm with hgoal | ⟨hnext, hlt⟩
      · exact ⟨m, hnm, hgoal⟩
      · obtain ⟨m', hle, hgoal⟩ := ih (rank (m + 1)) (by omega) hnext rfl
        exact ⟨m', by omega, hgoal⟩

theorem leads_to_of_fair {P Q enabled taken : ℕ → Prop} {t : ℕ}
    (hfair : (∀ t, ∃ m ≥ t, enabled m) → ∀ t, ∃ m ≥ t, taken m)
    (hstay : ∀ t, P t → ¬ taken t → P (t + 1))
    (hmove : ∀ t, P t → taken t → Q (t + 1)) (henabled : ∀ t, P t → ∃ m ≥ t, P m → enabled m)
    (ht : P t) :
    ∃ m ≥ t, Q m := by
  by_contra hnone
  push Not at hnone
  have hP : ∀ m ≥ t, P m := by
    intro m hm
    induction m, hm using Nat.le_induction with
    | base => exact ht
    | succ m hm ih => exact hstay m ih fun htaken => hnone (m + 1) (by omega) (hmove m ih htaken)
  have hagain : ∀ u, ∃ m ≥ u, enabled m := by
    intro u
    obtain ⟨m, hm, hen⟩ := henabled (max u t) (hP _ (le_max_right u t))
    exact ⟨m, (le_max_left u t).trans hm, hen (hP m ((le_max_right u t).trans hm))⟩
  obtain ⟨m, hm, htaken⟩ := hfair hagain t
  exact hnone (m + 1) (by omega) (hmove m (hP m hm) htaken)

end Temporal
