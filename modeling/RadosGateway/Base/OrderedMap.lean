import RadosGateway.Base.SortedMap

/-!
# Ordered maps

A `SortedMap` together with the proof that its keys increase.
-/

@[ext]
structure OrderedMap (κ V : Type) [LT κ] where
  entries : List (κ × V)
  sorted : SortedMap.Sorted entries

namespace OrderedMap

variable {κ V W : Type} [LT κ]

def empty : OrderedMap κ V := ⟨[], List.Pairwise.nil⟩

instance : Inhabited (OrderedMap κ V) := ⟨empty⟩

def singleton (k : κ) (v : V) : OrderedMap κ V := ⟨[(k, v)], List.pairwise_singleton _ _⟩

def map (f : V → W) (m : OrderedMap κ V) : OrderedMap κ W where
  entries := m.entries.map (Prod.map id f)
  sorted := by
    have h := m.sorted
    rwa [SortedMap.Sorted, SortedMap.keys, List.map_map]

theorem map_map {X : Type} (f : V → W) (g : W → X) (m : OrderedMap κ V) :
    (m.map f).map g = m.map (g ∘ f) := by
  ext1
  exact List.map_map

theorem map_id (m : OrderedMap κ V) : m.map id = m := by
  ext1
  exact List.map_id _

section Insert

variable [DecidableLT κ] [DecidableEq κ] [Trans (· < · : κ → κ → Prop) (· < ·) (· < ·)]
  [Std.Trichotomous (· < · : κ → κ → Prop)]

def insert (m : OrderedMap κ V) (k : κ) (v : V) : OrderedMap κ V :=
  ⟨SortedMap.insert k v m.entries, SortedMap.sorted_insert m.sorted⟩

theorem entries_insert [Std.Irrefl (· < · : κ → κ → Prop)] [Std.Asymm (· < · : κ → κ → Prop)]
    {m : OrderedMap κ V} {e : κ × V} {es : List (κ × V)}
    (h : SortedMap.Sorted (m.entries ++ e :: es)) :
    (m.insert e.1 e.2).entries = m.entries ++ [e] := by
  apply SortedMap.insert_eq_append
  intro k hk
  have hlt : k < e.1 := by
    obtain ⟨e', he', rfl⟩ := List.mem_map.mp hk
    exact h.lt_of_append he' List.mem_cons_self
  refine ⟨Std.Asymm.asymm _ _ hlt, fun heq => ?_⟩
  rw [heq] at hlt
  exact Std.Irrefl.irrefl _ hlt

end Insert

end OrderedMap
