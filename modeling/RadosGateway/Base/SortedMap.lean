import Mathlib

/-!
# Maps kept in the order of their keys

A map as the list of its entries in increasing order of the keys. In a multimap a key may stand more
than once, and a new entry comes behind those with its key.
-/

namespace SortedMap

open List

variable {κ V : Type*} [LT κ] [DecidableLT κ] [DecidableEq κ]

def keys (m : List (κ × V)) : List κ := m.map Prod.fst

def Sorted (m : List (κ × V)) : Prop := (keys m).Pairwise (· < ·)

def insert (k : κ) (v : V) : List (κ × V) → List (κ × V)
  | [] => [(k, v)]
  | e :: m =>
    if k < e.1 then (k, v) :: e :: m
    else if k = e.1 then (k, v) :: m
    else e :: insert k v m

variable {m : List (κ × V)} {v : V}

@[simp]
theorem mem_keys_insert {k k' : κ} : k' ∈ keys (insert k v m) ↔ k' = k ∨ k' ∈ keys m := by
  induction m with
  | nil => simp [keys, insert]
  | cons e m ih =>
    simp only [insert]
    split_ifs with hlt heq
    · simp [keys]
    · simp [keys, heq]
    · simp only [keys, map_cons, mem_cons] at ih ⊢
      rw [ih, or_left_comm]

theorem map_insert {W : Type*} (f : V → W) (k : κ) (v : V) (m : List (κ × V)) :
    (insert k v m).map (Prod.map id f) = insert k (f v) (m.map (Prod.map id f)) := by
  induction m with
  | nil => rfl
  | cons e m ih =>
    simp only [insert, map_cons, Prod.map_fst, id_eq]
    split_ifs
    · rfl
    · rfl
    · rw [map_cons, ih]

variable {k : κ}

theorem insert_perm (h : k ∉ keys m) : (insert k v m).Perm ((k, v) :: m) := by
  induction m with
  | nil => rfl
  | cons e m ih =>
    simp only [keys, map_cons, mem_cons, not_or] at h
    simp only [insert, if_neg h.1]
    split_ifs
    · rfl
    · exact ((ih h.2).cons e).trans (List.Perm.swap _ _ _)

theorem forall_mem_insert {p : κ × V → Prop} (hnew : p (k, v)) (hold : ∀ e ∈ m, p e) :
    ∀ e ∈ insert k v m, p e := by
  induction m with
  | nil => simpa [insert] using hnew
  | cons e m ih =>
    obtain ⟨he, hm⟩ := forall_mem_cons.mp hold
    simp only [insert]
    split_ifs
    · exact forall_mem_cons.mpr ⟨hnew, hold⟩
    · exact forall_mem_cons.mpr ⟨hnew, hm⟩
    · exact forall_mem_cons.mpr ⟨he, ih hm⟩

theorem insert_eq_append (h : ∀ k' ∈ keys m, ¬ k < k' ∧ k ≠ k') : insert k v m = m ++ [(k, v)] := by
  induction m with
  | nil => rfl
  | cons e m ih =>
    obtain ⟨hlt, hne⟩ := h e.1 mem_cons_self
    rw [insert, if_neg hlt, if_neg hne, ih fun k' hk' => h k' (mem_cons_of_mem _ hk'), cons_append]

theorem length_insert (h : k ∉ keys m) : (insert k v m).length = m.length + 1 :=
  (insert_perm h).length_eq

/-- `std::map` stays ordered. -/
theorem sorted_insert [Trans (· < · : κ → κ → Prop) (· < ·) (· < ·)]
    [Std.Trichotomous (· < · : κ → κ → Prop)] (h : Sorted m) : Sorted (insert k v m) := by
  induction m with
  | nil => simp [Sorted, keys, insert]
  | cons e m ih =>
    obtain ⟨hhead, htail⟩ := pairwise_cons.mp h
    simp only [insert]
    split_ifs with hlt heq
    · refine pairwise_cons.mpr ⟨?_, h⟩
      intro k' hk'
      rcases mem_cons.mp hk' with rfl | hk'
      · exact hlt
      · exact Trans.trans hlt (hhead k' hk')
    · subst heq
      exact h
    · refine pairwise_cons.mpr ⟨?_, ih htail⟩
      intro k' hk'
      rcases mem_keys_insert.mp hk' with rfl | hk'
      · have hgt : ¬ e.1 < k' → e.1 = k' := fun hnlt => Std.Trichotomous.trichotomous _ _ hnlt hlt
        by_contra hnlt
        exact heq (hgt hnlt).symm
      · exact hhead k' hk'

section Smallest

omit [DecidableEq κ] [DecidableLT κ]

structure Smallest (n : ℕ) (U : Set (κ × V)) (l : List (κ × V)) : Prop where
  sorted : Sorted l
  mem : ∀ e ∈ l, e ∈ U
  length_le : l.length ≤ n
  rest : ∀ e ∈ U, e ∉ l → l.length = n ∧ ∀ e' ∈ l, e'.1 < e.1

theorem Sorted.lt_of_append {m m' : List (κ × V)} (h : Sorted (m ++ m')) {e e' : κ × V} (he : e ∈ m)
    (he' : e' ∈ m') : e.1 < e'.1 := by
  rw [Sorted, keys, map_append, pairwise_append] at h
  exact h.2.2 e.1 (mem_map_of_mem he) e'.1 (mem_map_of_mem he')

theorem Sorted.nodup [Std.Irrefl (· < · : κ → κ → Prop)] (h : Sorted m) : m.Nodup := by
  refine List.Nodup.of_map Prod.fst (h.imp ?_)
  rintro a _ hlt rfl
  exact Std.Irrefl.irrefl a hlt

theorem Sorted.smallest_take (h : Sorted m) (n : ℕ) : Smallest n {e | e ∈ m} (m.take n) where
  sorted := h.sublist ((take_sublist n m).map Prod.fst)
  mem e he := mem_of_mem_take he
  length_le := length_take_le n m
  rest := by
    intro e he hnot
    rw [← take_append_drop n m] at h
    have hdrop : e ∈ m.drop n := by
      have he : e ∈ m.take n ++ m.drop n := by rwa [take_append_drop]
      exact (mem_append.mp he).resolve_left hnot
    have hpos := length_pos_of_mem hdrop
    rw [length_drop] at hpos
    refine ⟨?_, fun e' he' => h.lt_of_append he' hdrop⟩
    rw [length_take]
    omega

variable [Std.Irrefl (· < · : κ → κ → Prop)] {l l' : List (κ × V)} {n : ℕ} {U : Set (κ × V)}

theorem Smallest.subset [Std.Asymm (· < · : κ → κ → Prop)] (h : Smallest n U l)
    (h' : Smallest n U l') : l ⊆ l' := by
  intro e he
  by_contra hnot
  obtain ⟨hfull, hlt⟩ := h'.rest e (h.mem e he) hnot
  have hmore : ¬ l' ⊆ l := by
    -- Otherwise `l` had `e` besides the `n` entries of `l'`.
    intro hsub
    have hcons : (e :: l').Subperm l := by
      refine subperm_of_subset (nodup_cons.mpr ⟨hnot, h'.sorted.nodup⟩) ?_
      exact cons_subset.mpr ⟨he, hsub⟩
    have hlength := hcons.length_le
    rw [length_cons, hfull] at hlength
    have := h.length_le
    omega
  obtain ⟨e', he', hnot'⟩ := Set.not_subset.mp hmore
  exact Std.Asymm.asymm _ _ (hlt e' he') ((h.rest e' (h'.mem e' he') hnot').2 e he)

theorem Smallest.unique [Std.Asymm (· < · : κ → κ → Prop)] (h : Smallest n U l)
    (h' : Smallest n U l') : l = l' := by
  have hperm : l.Perm l' := by
    refine (perm_ext_iff_of_nodup h.sorted.nodup h'.sorted.nodup).mpr fun e => ?_
    exact ⟨fun he => h.subset h' he, fun he => h'.subset h he⟩
  refine hperm.eq_of_pairwise ?_ (pairwise_map.mp h.sorted) (pairwise_map.mp h'.sorted)
  intro e e' _ _ hlt hgt
  exact absurd hgt (Std.Asymm.asymm _ _ hlt)

/-- For the smallest `n` entries of several maps, the first `n` of each are enough. -/
theorem Smallest.of_take [Trans (· < · : κ → κ → Prop) (· < ·) (· < ·)] {ι : Type*} {L : List ι}
    {maps : ι → List (κ × V)} {l : List (κ × V)} (hsorted : ∀ i ∈ L, Sorted (maps i))
    (h : Smallest n {e | ∃ i ∈ L, e ∈ (maps i).take n} l) :
    Smallest n {e | ∃ i ∈ L, e ∈ maps i} l where
  sorted := h.sorted
  mem := by
    intro e he
    obtain ⟨i, hi, hem⟩ := h.mem e he
    exact ⟨i, hi, mem_of_mem_take hem⟩
  length_le := h.length_le
  rest := by
    rintro e ⟨i, hi, hem⟩ hel
    have hmap := hsorted i hi
    by_cases htake : e ∈ (maps i).take n
    · exact h.rest e ⟨i, hi, htake⟩ hel
    · -- `e` stands behind the first `n` entries of its map, which are all smaller.
      have hsplit : Sorted ((maps i).take n ++ (maps i).drop n) := by
        rw [take_append_drop]
        exact hmap
      have hdrop : e ∈ (maps i).drop n := by
        rw [← take_append_drop n (maps i), mem_append] at hem
        exact hem.resolve_left htake
      have hsmaller : ∀ x ∈ (maps i).take n, x.1 < e.1 := fun x hx => hsplit.lt_of_append hx hdrop
      have hlength : ((maps i).take n).length = n := by
        have := length_pos_of_mem hdrop
        rw [length_drop] at this
        rw [length_take]
        omega
      by_cases hall : (maps i).take n ⊆ l
      · have hsub : ((maps i).take n).Subperm l :=
          subperm_of_subset hmap.nodup.take hall
        have hperm : ((maps i).take n).Perm l :=
          hsub.perm_of_length_le (by rw [hlength]; exact h.length_le)
        exact ⟨by rw [← hperm.length_eq, hlength], fun e' he' =>
          hsmaller e' (hperm.mem_iff.mpr he')⟩
      · obtain ⟨x, hx, hxl⟩ := Set.not_subset.mp hall
        obtain ⟨hfull, hlt⟩ := h.rest x ⟨i, hi, hx⟩ hxl
        exact ⟨hfull, fun e' he' => Trans.trans (hlt e' he') (hsmaller x hx)⟩

end Smallest

section Multimap

omit [DecidableEq κ]

def Ordered (m : List (κ × V)) : Prop := (keys m).Pairwise fun a b => ¬ b < a

def insertMulti (k : κ) (v : V) : List (κ × V) → List (κ × V)
  | [] => [(k, v)]
  | e :: m => if k < e.1 then (k, v) :: e :: m else e :: insertMulti k v m

theorem mem_keys_insertMulti {k k' : κ} : k' ∈ keys (insertMulti k v m) ↔ k' = k ∨ k' ∈ keys m := by
  induction m with
  | nil => simp [keys, insertMulti]
  | cons e m ih =>
    simp only [insertMulti]
    split_ifs
    · simp [keys]
    · simp only [keys, map_cons, mem_cons] at ih ⊢
      rw [ih, or_left_comm]

theorem ordered_insertMulti [Trans (· < · : κ → κ → Prop) (· < ·) (· < ·)]
    [Std.Asymm (· < · : κ → κ → Prop)] (h : Ordered m) : Ordered (insertMulti k v m) := by
  induction m with
  | nil => simp [Ordered, keys, insertMulti]
  | cons e m ih =>
    obtain ⟨hhead, htail⟩ := pairwise_cons.mp h
    simp only [insertMulti]
    split_ifs with hlt
    · refine pairwise_cons.mpr ⟨?_, h⟩
      intro k' hk' hless
      rcases mem_cons.mp hk' with rfl | hk'
      · exact Std.Asymm.asymm _ _ hlt hless
      · exact hhead k' hk' (Trans.trans hless hlt)
    · refine pairwise_cons.mpr ⟨?_, ih htail⟩
      intro k' hk'
      rcases mem_keys_insertMulti.mp hk' with rfl | hk'
      · exact hlt
      · exact hhead k' hk'

theorem insertMulti_eq_append (h : ∀ k' ∈ keys m, ¬ k < k') :
    insertMulti k v m = m ++ [(k, v)] := by
  induction m with
  | nil => rfl
  | cons e m ih =>
    rw [insertMulti, if_neg (h e.1 mem_cons_self),
      ih fun k' hk' => h k' (mem_cons_of_mem _ hk'), cons_append]

end Multimap

end SortedMap
