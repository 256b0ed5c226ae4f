import Mathlib

/-!
# Indexes

An index keeps, for each key of a list of pairs, all values of the key joined by an operation. If
the operation is associative, commutative and idempotent, the order does not matter, and an index
that is not cleared before it is filled is right exactly if the list covers it. -/

namespace Index

open Option

variable {κ V : Type*} [DecidableEq κ] (op : V → V → V)

def ofList (l : List (κ × V)) (k : κ) : Option V :=
  l.foldr (fun e joined => if e.1 = k then Option.merge op (some e.2) joined else joined) none

def single (e : κ × V) (k : κ) : Option V := if e.1 = k then some e.2 else none

theorem ofList_cons (e : κ × V) (l : List (κ × V)) (k : κ) :
    ofList op (e :: l) k = Option.merge op (single e k) (ofList op l k) := by
  rw [ofList, List.foldr_cons, ← ofList, single]
  split
  · rfl
  · rw [merge_none_left]

theorem ofList_eq_none_iff {l : List (κ × V)} {k : κ} : ofList op l k = none ↔
    ∀ e ∈ l, e.1 ≠ k := by
  induction l with
  | nil => simp [ofList]
  | cons e l ih =>
    rw [ofList_cons, List.forall_mem_cons, ← ih, single]
    split <;> rename_i heq
    · cases ofList op l k <;> simp [Option.merge, heq]
    · simp [merge_none_left, heq]

theorem merge_eq_right_iff {a b : Option V} :
    Option.merge op a b = b ↔ ∀ v, a = some v → ∃ w, b = some w ∧ op v w = w := by
  cases a with
  | none => simp [merge_none_left]
  | some v =>
    cases b with
    | none => simp [Option.merge]
    | some w => simp [Option.merge]

variable [Std.Associative op]

theorem foldl_eq_merge {σ α : Type*} {get : σ → κ → Option V} {fill : σ → α → σ} {entry : α → κ × V}
    (hfill : ∀ s a k, get (fill s a) k = Option.merge op (get s k) (single (entry a) k))
    (l : List α)
    (s : σ) (k : κ) : get (l.foldl fill s) k = Option.merge op (get s k)
    (ofList op (l.map entry) k) := by
  induction l generalizing s with
  | nil => simp [ofList, merge_none_right]
  | cons a l ih =>
    rw [List.foldl_cons, ih, hfill, List.map_cons, ofList_cons, (associative_merge op).assoc]

variable [Std.Commutative op]

theorem ofList_perm {l l' : List (κ × V)} (h : l.Perm l') : ofList op l = ofList op l' := by
  funext k
  have hcomm : LeftCommutative fun (e : κ × V) joined =>
      if e.1 = k then Option.merge op (some e.2) joined else joined := by
    constructor
    intro e e' joined
    split <;> split <;> try rfl
    rw [← (associative_merge op).assoc, ← (associative_merge op).assoc,
      (commutative_merge op).comm (some e.2)]
  exact h.foldr_eq none

variable [Std.IdempotentOp op]

theorem le_of_join_le {u v w : V} (h : op u (op v w) = w) : op u w = w ∧ op v w = w := by
  have hassoc : ∀ a b c, op (op a b) c = op a (op b c) := Std.Associative.assoc
  have hcomm : ∀ a b, op a b = op b a := Std.Commutative.comm
  have hidem : ∀ a, op a a = a := Std.IdempotentOp.idempotent
  have hv : op v w = w := by
    calc op v w = op v (op u (op v w)) := by rw [h]
      _ = op u (op (op v v) w) := by rw [← hassoc v u, hcomm v u, hassoc, ← hassoc v v]
      _ = w := by rw [hidem, h]
  exact ⟨by rwa [hv] at h, hv⟩

theorem merge_ofList_eq_iff {l : List (κ × V)} {k : κ} {w : V} :
    Option.merge op (ofList op l k) (some w) = some w ↔ ∀ e ∈ l, e.1 = k → op e.2 w = w := by
  induction l with
  | nil => simp [ofList, merge_none_left]
  | cons e l ih =>
    rw [ofList_cons, (associative_merge op).assoc, List.forall_mem_cons, ← ih, single]
    by_cases heq : e.1 = k
    · rw [if_pos heq]
      cases ofList op l k with
      | none => simp [Option.merge, heq]
      | some v =>
        simp only [Option.merge, some.injEq, heq, forall_true_left]
        constructor
        · exact fun h => le_of_join_le op h
        · rintro ⟨hu, hv⟩
          rw [hv, hu]
    · simp [heq, merge_none_left]

end Index
