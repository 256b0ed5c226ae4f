import Mathlib

/-!
# Pieces of a range

A range of positions is cut into pieces, each with its first position and its length: every piece
starts where the one before it ends, and none is empty. What a function has on the pieces is, one
after the other, what it has on the range. -/

namespace Pieces

open List

variable {α : Type*} {f : Nat → α} {a : Nat} {l l' : List (Nat × Nat)}

def span (f : Nat → α) (a n : Nat) : List α := (List.range' a n).map f

@[simp] theorem length_span (f : Nat → α) (a n : Nat) : (span f a n).length = n := by simp [span]

theorem span_append (f : Nat → α) (a m n : Nat) :
    span f a m ++ span f (a + m) n = span f a (m + n) := by
  unfold span
  rw [← map_append, range'_append_1]

theorem span_append_sub (f : Nat → α) {a b : Nat} (n : Nat) (h : a ≤ b) :
    span f a (b - a) ++ span f b n = span f a (b + n - a) := by
  obtain ⟨k, rfl⟩ := Nat.exists_eq_add_of_le h
  rw [Nat.add_sub_cancel_left, span_append, Nat.add_assoc, Nat.add_sub_cancel_left]

theorem span_mono (f : Nat → α) (a : Nat) {m n : Nat} (h : m ≤ n) : span f a m <+: span f a n := by
  obtain ⟨k, rfl⟩ := Nat.exists_eq_add_of_le h
  exact ⟨_, span_append f a m k⟩

theorem drop_span (f : Nat → α) (a m n : Nat) : (span f a (m + n)).drop m = span f (a + m) n := by
  rw [← span_append]
  exact drop_left' (length_span f a m)

theorem take_span (f : Nat → α) (a m n : Nat) : (span f a (m + n)).take m = span f a m := by
  rw [← span_append]
  exact take_left' (length_span f a m)

def Chain (a : Nat) : List (Nat × Nat) → Prop
  | [] => True
  | q :: l => q.1 = a ∧ 0 < q.2 ∧ Chain (a + q.2) l

def total (l : List (Nat × Nat)) : Nat := (l.map Prod.snd).sum

@[simp] theorem total_nil : total [] = 0 := rfl

@[simp] theorem total_cons (q : Nat × Nat) (l : List (Nat × Nat)) :
    total (q :: l) = q.2 + total l := by
  simp [total]

@[simp] theorem total_append (l l' : List (Nat × Nat)) : total (l ++ l') = total l + total l' := by
  simp [total]

theorem chain_append : Chain a (l ++ l') ↔ Chain a l ∧ Chain (a + total l) l' := by
  induction l generalizing a with
  | nil => simp [Chain]
  | cons q l ih =>
    rw [cons_append, Chain, Chain, ih, total_cons, Nat.add_assoc]
    tauto

theorem Chain.le_of_mem (h : Chain a l) : ∀ q ∈ l, a ≤ q.1 := by
  induction l generalizing a with
  | nil => exact forall_mem_nil _
  | cons q l ih =>
    obtain ⟨hq, -, hl⟩ := h
    rw [forall_mem_cons]
    constructor
    · exact hq.ge
    · intro q' hq'
      have := ih hl q' hq'
      omega

theorem Chain.pairwise (h : Chain a l) : (l.map Prod.fst).Pairwise (· < ·) := by
  induction l generalizing a with
  | nil => exact List.Pairwise.nil
  | cons q l ih =>
    obtain ⟨hq, hpos, hl⟩ := h
    rw [map_cons, pairwise_cons]
    refine ⟨?_, ih hl⟩
    intro b hb
    obtain ⟨q', hq', rfl⟩ := mem_map.mp hb
    have := hl.le_of_mem q' hq'
    omega

theorem Chain.lt_of_mem (h : Chain a l) : ∀ q ∈ l, q.1 < a + total l := by
  induction l generalizing a with
  | nil => exact forall_mem_nil _
  | cons q l ih =>
    obtain ⟨hq, hpos, hl⟩ := h
    rw [total_cons]
    rw [forall_mem_cons]
    constructor
    · omega
    · intro q' hq'
      have := ih hl q' hq'
      omega

theorem Chain.add_le_of_mem (h : Chain a l) : ∀ q ∈ l, q.1 + q.2 ≤ a + total l := by
  induction l generalizing a with
  | nil => exact forall_mem_nil _
  | cons q l ih =>
    obtain ⟨hq, hpos, hl⟩ := h
    rw [total_cons, forall_mem_cons]
    constructor
    · omega
    · intro q' hq'
      have := ih hl q' hq'
      omega

theorem Chain.flatMap_span (h : Chain a l) :
    l.flatMap (fun q => span f q.1 q.2) = span f a (total l) := by
  induction l generalizing a with
  | nil => rfl
  | cons q l ih =>
    obtain ⟨rfl, -, hl⟩ := h
    rw [flatMap_cons, ih hl, span_append, total_cons]

def between (l : List α) (a b : Nat) : List α := (l.take b).drop a

theorem length_between (l : List α) (a b : Nat) : (between l a b).length = min b l.length - a := by
  rw [between, length_drop, length_take]

theorem between_append (l : List α) {a b c : Nat} (hab : a ≤ b) (hbc : b ≤ c) :
    between l a b ++ between l b c = between l a c := by
  have htake : l.take b = (l.take c).take b := by rw [take_take, Nat.min_eq_left hbc]
  rw [between, between, between, htake, drop_take]
  obtain ⟨k, rfl⟩ := Nat.exists_eq_add_of_le hab
  rw [Nat.add_sub_cancel_left, ← drop_drop, take_append_drop]

theorem drop_between (l : List α) (a b n : Nat) : (between l a b).drop n = between l (a + n) b := by
  rw [between, between, drop_drop]

theorem take_between (l : List α) {a b n : Nat} (h : a + n ≤ b) :
    (between l a b).take n = between l a (a + n) := by
  rw [between, between, take_drop, take_take, Nat.min_eq_left h]

theorem getElem?_between (l : List α) {a b i : Nat} (h : a + i < b) :
    (between l a b)[i]? = l[a + i]? := by
  rw [between, getElem?_drop, getElem?_take_of_lt h]

theorem span_getD (l : List α) (d : α) {a b : Nat} (h : b ≤ l.length) :
    span (l.getD · d) a (b - a) = between l a b := by
  apply ext_getElem
  · simp [length_between, h]
  · intro i hi _
    simp only [span, between, getElem_map, getElem_range'_1, getElem_drop, getElem_take]
    exact getD_eq_getElem _ _ _

end Pieces
