import Mathlib

/-!
# Blocks laid out one after the other

A block has a size and says what is at each of its positions. Blocks that follow each other make up
one range of positions. -/

namespace Layout

open List

variable {β : Type*}

structure Block (β : Type*) where
  size : Nat
  val : Nat → β

def lookup : List (Block β) → Nat → Option β
  | [], _ => none
  | b :: bs, o => if o < b.size then some (b.val o) else lookup bs (o - b.size)

def total (bs : List (Block β)) : Nat := (bs.map Block.size).sum

@[simp]
theorem total_nil : total ([] : List (Block β)) = 0 := rfl

@[simp]
theorem total_cons (b : Block β) (bs : List (Block β)) : total (b :: bs) = b.size + total bs := rfl

@[simp]
theorem total_append (bs cs : List (Block β)) : total (bs ++ cs) = total bs + total cs := by
  simp [total]

theorem lookup_isSome (bs : List (Block β)) (o : Nat) : (lookup bs o).isSome ↔ o < total bs := by
  induction bs generalizing o with
  | nil => simp [lookup]
  | cons b bs ih =>
    rw [lookup, total_cons]
    split_ifs with h
    · simp only [Option.isSome_some, true_iff]
      omega
    · rw [ih]
      omega

theorem lookup_eq_none {bs : List (Block β)} {o : Nat} (h : total bs ≤ o) : lookup bs o = none := by
  rw [← Option.not_isSome_iff_eq_none, lookup_isSome]
  exact Nat.not_lt.mpr h

theorem lookup_append_add (bs cs : List (Block β)) (o : Nat) : lookup (bs ++ cs)
    (total bs + o) = lookup cs o := by
  induction bs with
  | nil => rw [total_nil, zero_add, nil_append]
  | cons b bs ih =>
    rw [cons_append, lookup, total_cons, if_neg (by omega), add_assoc, Nat.add_sub_cancel_left, ih]

theorem lookup_block (bs : List (Block β)) (b : Block β) (cs : List (Block β)) {o : Nat}
    (h : o < b.size) :
    lookup (bs ++ b :: cs) (total bs + o) = some (b.val o) := by
  rw [lookup_append_add, lookup, if_pos h]

theorem lookup_filter (bs : List (Block β)) (o : Nat) :
    lookup (bs.filter fun b => b.size ≠ 0) o = lookup bs o := by
  induction bs generalizing o with
  | nil => rfl
  | cons b bs ih =>
    by_cases h : b.size = 0
    · rw [filter_cons_of_neg (by simp [h]), ih, lookup, if_neg (by omega), h, Nat.sub_zero]
    · rw [filter_cons_of_pos (by simp [h]), lookup, lookup, ih]

theorem total_filter (bs : List (Block β)) : total (bs.filter fun b => b.size ≠ 0) = total bs := by
  induction bs with
  | nil => rfl
  | cons b bs ih =>
    by_cases h : b.size = 0
    · rw [filter_cons_of_neg (by simp [h]), ih, total_cons, h, zero_add]
    · rw [filter_cons_of_pos (by simp [h]), total_cons, total_cons, ih]

def Block.Agrees (b c : Block β) : Prop := ∀ o < b.size, b.val o = c.val o

/-- Blocks of equal sizes give one map of offsets exactly if they agree one by one. -/
theorem lookup_eq_iff {bs cs : List (Block β)}
    (hsize : List.Forall₂ (fun b c => b.size = c.size) bs cs) :
    (∀ o, lookup bs o = lookup cs o) ↔ List.Forall₂ Block.Agrees bs cs := by
  induction hsize with
  | nil => exact iff_of_true (fun _ => rfl) .nil
  | @cons b c bs cs hbc _ ih =>
    rw [forall₂_cons, ← ih]
    constructor
    · intro h
      constructor
      · intro o ho
        have hat := h o
        rw [lookup, lookup, if_pos ho, if_pos (hbc ▸ ho)] at hat
        exact Option.some.inj hat
      · intro o
        have hat := h (b.size + o)
        rwa [lookup, lookup, if_neg (by omega), if_neg (by omega), ← hbc,
          Nat.add_sub_cancel_left] at hat
    · rintro ⟨hagrees, hrest⟩ o
      rw [lookup, lookup, ← hbc]
      split_ifs with ho
      · rw [hagrees o ho]
      · exact hrest _

end Layout
