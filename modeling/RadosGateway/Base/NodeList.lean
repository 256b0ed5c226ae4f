import Mathlib

/-!
# Linked lists with positions

A position in a doubly linked list stays valid until its node is erased. It is the number of the
node, which no other node ever had; using the position of a node that is gone has no result.
-/

structure NodeList (α : Type) where
  nodes : List (Nat × α)
  next : Nat
  fresh : ∀ x ∈ nodes, x.1 < next
  nodup : (nodes.map Prod.fst).Nodup

namespace NodeList

open List

variable {α : Type} (L : NodeList α)

def empty : NodeList α := ⟨[], 0, by simp, by simp⟩

def values : List α := L.nodes.map Prod.snd

def length : Nat := L.nodes.length

def front : Option α := L.nodes.head?.map Prod.snd

def back : Option α := L.nodes.getLast?.map Prod.snd

def At (it : Nat) (a : α) : Prop := (it, a) ∈ L.nodes

def clear : NodeList α := ⟨[], L.next, by simp, by simp⟩

def pushBack (a : α) : NodeList α where
  nodes := L.nodes ++ [(L.next, a)]
  next := L.next + 1
  fresh := by
    intro x hx
    rcases mem_append.mp hx with hx | hx
    · exact Nat.lt_succ_of_lt (L.fresh x hx)
    · rw [mem_singleton.mp hx]
      exact Nat.lt_succ_self _
  nodup := by
    rw [map_append, nodup_append]
    refine ⟨L.nodup, by simp, ?_⟩
    intro n hn m hm heq
    obtain ⟨x, hx, rfl⟩ := mem_map.mp hn
    have hlt := L.fresh x hx
    simp only [map_cons, map_nil, mem_singleton] at hm
    omega

def pushFront (a : α) : NodeList α where
  nodes := (L.next, a) :: L.nodes
  next := L.next + 1
  fresh := by
    intro x hx
    rcases mem_cons.mp hx with rfl | hx
    · exact Nat.lt_succ_self _
    · exact Nat.lt_succ_of_lt (L.fresh x hx)
  nodup := by
    rw [map_cons, nodup_cons]
    refine ⟨fun hmem => ?_, L.nodup⟩
    obtain ⟨x, hx, heq⟩ := mem_map.mp hmem
    exact absurd heq (L.fresh x hx).ne

def popFront : NodeList α where
  nodes := L.nodes.tail
  next := L.next
  fresh := fun x hx => L.fresh x (mem_of_mem_tail hx)
  nodup := by
    rw [map_tail]
    exact L.nodup.sublist (tail_sublist _)

def popBack : NodeList α where
  nodes := L.nodes.dropLast
  next := L.next
  fresh := fun x hx => L.fresh x (mem_of_mem_dropLast hx)
  nodup := by
    rw [map_dropLast]
    exact L.nodup.sublist (dropLast_sublist _)

def erase (it : Nat) : Option (NodeList α) :=
  if it ∈ L.nodes.map Prod.fst then
    some {
      nodes := L.nodes.filter (·.1 ≠ it)
      next := L.next
      fresh := fun x hx => L.fresh x (mem_of_mem_filter hx)
      nodup := L.nodup.sublist (filter_sublist.map Prod.fst) }
  else none

variable {L} {a b : α} {it jt : Nat}

@[simp]
theorem values_empty : (empty : NodeList α).values = [] := rfl

@[simp]
theorem values_clear : L.clear.values = [] := rfl

@[simp]
theorem values_pushBack : (L.pushBack a).values = L.values ++ [a] := by
  simp [values, pushBack]

@[simp]
theorem values_popFront : L.popFront.values = L.values.tail := by
  simp [values, popFront]

@[simp]
theorem values_pushFront : (L.pushFront a).values = a :: L.values := rfl

@[simp]
theorem values_popBack : L.popBack.values = L.values.dropLast := by
  simp [values, popBack, map_dropLast]

theorem length_values : L.values.length = L.length := by
  simp [values, length]

theorem front_eq_head? : L.front = L.values.head? := by
  simp [front, values]

theorem back_eq_getLast? : L.back = L.values.getLast? := by
  simp [back, values, getLast?_map]

theorem At.mem_values (h : L.At it a) : a ∈ L.values := mem_map_of_mem h

theorem at_pushBack_next : (L.pushBack a).At L.next a := by simp [At, pushBack]

theorem At.pushBack (h : L.At it a) : (L.pushBack b).At it a := mem_append_left _ h

theorem at_pushFront_next : (L.pushFront a).At L.next a := by simp [At, pushFront]

theorem At.pushFront (h : L.At it a) : (L.pushFront b).At it a := mem_cons_of_mem _ h

theorem At.unique (h : L.At it a) (h' : L.At jt a) (hvalues : L.values.Nodup) : it = jt :=
  congrArg Prod.fst (inj_on_of_nodup_map hvalues h h' rfl)

theorem At.popBack (h : L.At it a) (hback : L.back ≠ some a) : L.popBack.At it a := by
  change (it, a) ∈ L.nodes.dropLast
  change (it, a) ∈ L.nodes at h
  unfold back at hback
  rcases eq_nil_or_concat' L.nodes with hnodes | ⟨rest, x, hnodes⟩
  · rw [hnodes] at h
    cases h
  · rw [hnodes, getLast?_concat] at hback
    rw [hnodes] at h
    rw [hnodes, dropLast_concat]
    rcases mem_append.mp h with hrest | hlast
    · exact hrest
    · rw [mem_singleton] at hlast
      exact absurd (by rw [← hlast]; rfl) hback

theorem At.popFront (h : L.At it a) (hfront : L.front ≠ some a) : L.popFront.At it a := by
  change (it, a) ∈ L.nodes.tail
  change (it, a) ∈ L.nodes at h
  unfold front at hfront
  cases hnodes : L.nodes with
  | nil =>
    rw [hnodes] at h
    cases h
  | cons x rest =>
    rw [hnodes] at h hfront
    rcases mem_cons.mp h with rfl | hrest
    · exact absurd rfl hfront
    · exact hrest

section Erase

variable [BEq α] [LawfulBEq α]

/-- Erasing a node takes out its value and leaves the iterators of all others valid. -/
theorem At.erase (h : L.At it a) (hvalues : L.values.Nodup) :
    ∃ L', L.erase it = some L' ∧ L'.values = L.values.erase a ∧ ∀ jt b, b ≠ a → L.At jt b →
    L'.At jt b := by
  have hsame : ∀ x ∈ L.nodes, x.1 = it ↔ x.2 = a := by
    intro x hx
    constructor
    · intro hit
      rw [inj_on_of_nodup_map L.nodup hx h hit]
    · intro ha
      rw [inj_on_of_nodup_map hvalues hx h ha]
  have hmem : it ∈ L.nodes.map Prod.fst := mem_map_of_mem h
  refine ⟨_, if_pos hmem, ?_, ?_⟩
  · rw [hvalues.erase_eq_filter]
    unfold values
    rw [filter_map]
    refine congrArg (List.map Prod.snd) (filter_congr fun x hx => ?_)
    have hiff := hsame x hx
    by_cases hit : x.1 = it
    · simp [hit, hiff.mp hit]
    · have hne : x.2 ≠ a := fun ha => hit (hiff.mpr ha)
      simp [hit, hne]
  · intro jt b hne hb
    refine mem_filter.mpr ⟨hb, ?_⟩
    have hjt : jt ≠ it := fun heq => hne ((hsame _ hb).mp heq)
    simpa using hjt

end Erase

end NodeList
