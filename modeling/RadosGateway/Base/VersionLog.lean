import Mathlib

/-!
# Logs ordered by version

A log as the list of what was recorded under each version, in increasing order of the versions. What
a reader gets is a part between two versions.
-/

namespace VersionLog

open List

variable {α : Type*} {l : List (Nat × α)} {a b v : Nat}

def Sorted (l : List (Nat × α)) : Prop := l.Pairwise fun x y => x.1 < y.1

def upTo (v : Nat) (l : List (Nat × α)) : List (Nat × α) := l.filter fun x => x.1 ≤ v

def after (v : Nat) (l : List (Nat × α)) : List (Nat × α) := l.filter fun x => v < x.1

def between (a b : Nat) (l : List (Nat × α)) : List (Nat × α) := upTo b (after a l)

theorem mem_upTo {x : Nat × α} : x ∈ upTo v l ↔ x ∈ l ∧ x.1 ≤ v := by
  simp [upTo]

theorem mem_after {x : Nat × α} : x ∈ after v l ↔ x ∈ l ∧ v < x.1 := by
  simp [after]

theorem mem_between {x : Nat × α} : x ∈ between a b l ↔ x ∈ l ∧ a < x.1 ∧ x.1 ≤ b := by
  simp [between, mem_upTo, mem_after, and_assoc]

theorem Sorted.upTo (h : Sorted l) (v : Nat) : Sorted (upTo v l) := List.Pairwise.filter _ h

theorem Sorted.after (h : Sorted l) (v : Nat) : Sorted (after v l) := List.Pairwise.filter _ h

theorem upTo_append_after (h : Sorted l) (v : Nat) : upTo v l ++ after v l = l := by
  induction l with
  | nil => rfl
  | cons x l ih =>
    obtain ⟨hx, hl⟩ := pairwise_cons.mp h
    by_cases hv : x.1 ≤ v
    · have := ih hl
      simp only [VersionLog.upTo, VersionLog.after] at this ⊢
      simp [hv, this]
    · have hup : VersionLog.upTo v l = [] :=
        filter_eq_nil_iff.mpr fun y hy => by simpa using (by have := hx y hy; omega : v < y.1)
      have hafter : VersionLog.after v l = l :=
        filter_eq_self.mpr fun y hy => by simpa using (by have := hx y hy; omega : v < y.1)
      simp only [VersionLog.upTo, VersionLog.after] at hup hafter ⊢
      rw [filter_cons_of_neg (by simpa using hv), filter_cons_of_pos (by simpa using hv), hup,
        hafter]
      rfl

theorem after_after (a b : Nat) (l : List (Nat × α)) : after a (after b l) = after (max a b) l := by
  simp only [after, filter_filter]
  exact filter_congr fun x _ => by simp

theorem after_eq_self (h : ∀ x ∈ l, v < x.1) : after v l = l :=
  filter_eq_self.mpr fun x hx => by simpa using h x hx

theorem upTo_eq_append (h : Sorted l) (hab : a ≤ b) : upTo b l = upTo a l ++ between a b l := by
  rw [← upTo_append_after (h.upTo b) a]
  congr 1
  · simp only [upTo, filter_filter]
    exact filter_congr fun x _ => by simpa using fun hx => hx.trans hab
  · simp only [between, upTo, after, filter_filter, Bool.and_comm]

theorem between_eq_append {c : Nat} (h : Sorted l) (hab : a ≤ b) (hbc : b ≤ c) :
    between a c l = between a b l ++ between b c l := by
  have hrest : between b c (after a l) = between b c l := by
    rw [between, after_after, max_eq_left hab, between]
  rw [between, upTo_eq_append (h.after a) hbc, hrest]
  rfl

theorem take_eq_upTo (h : Sorted l) {n : Nat} {x : Nat × α} (hlast : (l.take n).getLast? = some x) :
    l.take n = upTo x.1 l := by
  obtain ⟨hinit, hrest, hcross⟩ := pairwise_append.mp ((take_append_drop n l).symm ▸ h)
  obtain ⟨init, htake⟩ := getLast?_eq_some_iff.mp hlast
  have hmem : x ∈ l.take n := htake ▸ mem_append_right _ (mem_singleton_self x)
  have hle : ∀ y ∈ l.take n, y.1 ≤ x.1 := by
    intro y hy
    rw [htake] at hinit hy
    rcases mem_append.mp hy with hy | hy
    · exact ((pairwise_append.mp hinit).2.2 y hy x (mem_singleton_self x)).le
    · rw [mem_singleton.mp hy]
  conv_rhs => rw [← take_append_drop n l]
  rw [upTo, filter_append, filter_eq_self.mpr, filter_eq_nil_iff.mpr, append_nil]
  · intro y hy
    simpa using hcross x hmem y hy
  · intro y hy
    simpa using hle y hy

end VersionLog
