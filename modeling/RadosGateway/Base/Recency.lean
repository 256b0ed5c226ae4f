import Mathlib

/-!
# The most recently used bindings

A cache of bounded size, seen from outside: the list of the bindings it holds, the one used last in
front. Using a binding puts it in front and drops what no longer fits.
-/

structure Recency (K V : Type*) (max : Nat) where
  list : List (K × V)
  nodup : (list.map Prod.fst).Nodup
  length_le : list.length ≤ max

namespace Recency

open List

variable {K V : Type*} {max : Nat} [DecidableEq K] (r : Recency K V max) {key key' : K} {v v' : V}

def empty : Recency K V max := ⟨[], by simp, by simp⟩

def keys : List K := r.list.map Prod.fst

def lookup (key : K) : Option V := r.list.lookup key

def others (key : K) (l : List (K × V)) : List (K × V) := l.filter (·.1 ≠ key)

variable {l : List (K × V)}

theorem mem_others : (key', v) ∈ others key l ↔ (key', v) ∈ l ∧ key' ≠ key := by
  simp [others]

theorem map_fst_others (l : List (K × V)) :
    (others key l).map Prod.fst = (l.map Prod.fst).filter (· ≠ key) := by
  rw [others, filter_map]
  rfl

theorem nodup_others (h : (l.map Prod.fst).Nodup) : ((others key l).map Prod.fst).Nodup := by
  rw [map_fst_others]
  exact h.filter _

theorem others_eq_self (h : key ∉ l.map Prod.fst) : others key l = l := by
  refine filter_eq_self.mpr fun b hb => ?_
  have hne : b.1 ≠ key := fun heq => h (heq ▸ mem_map_of_mem hb)
  simpa using hne

theorem nodup_cons_others (h : (l.map Prod.fst).Nodup) :
    (((key, v) :: others key l).map Prod.fst).Nodup := by
  rw [map_cons, map_fst_others, nodup_cons]
  exact ⟨by simp, h.filter _⟩

def use (key : K) (v : V) : Recency K V max where
  list := ((key, v) :: others key r.list).take max
  nodup := by
    rw [map_take]
    exact (nodup_cons_others r.nodup).sublist (take_sublist _ _)
  length_le := length_take_le _ _

def forget (key : K) : Recency K V max where
  list := others key r.list
  nodup := nodup_others r.nodup
  length_le := (length_filter_le _ _).trans r.length_le

theorem lookup_eq_some_iff (h : (l.map Prod.fst).Nodup) : l.lookup key = some v ↔ (key, v) ∈ l := by
  induction l with
  | nil => simp
  | cons b l ih =>
    obtain ⟨hnew, htail⟩ := nodup_cons.mp h
    rw [lookup_cons]
    by_cases heq : key = b.1
    · have hnot : (key, v) ∉ l := fun hmem => hnew (heq ▸ mem_map_of_mem hmem)
      rw [beq_iff_eq.mpr heq, mem_cons, or_iff_left hnot, Option.some.injEq, Prod.ext_iff,
        and_iff_right heq]
      exact eq_comm
    · have hne : (key, v) ≠ b := fun hb => heq (congrArg Prod.fst hb)
      rw [beq_eq_false_iff_ne.mpr heq, mem_cons, or_iff_right hne]
      exact ih htail

variable {r}

theorem lookup_eq_some : r.lookup key = some v ↔ (key, v) ∈ r.list := lookup_eq_some_iff r.nodup

theorem lookup_isSome : (r.lookup key).isSome ↔ key ∈ r.keys := by
  simp only [Option.isSome_iff_exists, lookup_eq_some, keys, mem_map, Prod.exists, exists_and_right,
    exists_eq_right]

theorem list_use_of_mem (h : (key, v') ∈ r.list) :
    (r.use key v).list = (key, v) :: others key r.list := by
  have hlt : (others key r.list).length < r.list.length :=
    length_filter_lt_length_iff_exists.mpr ⟨_, h, by simp⟩
  refine take_of_length_le ?_
  calc ((key, v) :: others key r.list).length = (others key r.list).length + 1 := length_cons
    _ ≤ r.list.length := hlt
    _ ≤ max := r.length_le

theorem mem_use (h : (key', v') ∈ (r.use key v).list) :
    (key' = key ∧ v' = v) ∨ (key' ≠ key ∧ (key', v') ∈ r.list) := by
  rcases mem_cons.mp (mem_of_mem_take h) with heq | hmem
  · exact .inl (Prod.mk.inj heq)
  · exact .inr (mem_others.mp hmem).symm

end Recency
