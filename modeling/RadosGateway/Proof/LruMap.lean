import RadosGateway.LruMap
import RadosGateway.Base.Recency

/-!
# The map keeps the most recently used bindings

A call on the map does what it does to the list of the bindings in the order of their last use: its
keys are those of `entries_lru`, and every entry knows the node of its key.
-/

namespace RadosGateway.LruMap

open Text List Option

variable {K V : Type} [DecidableEq K] {m : LruMap K V} {l : List (K × V)} {key : K}

section Recent

variable {max : Nat}

def recentFind (r : Recency K V max) (key : K) (ctx : Option (UpdateContext V)) :
    Recency K V max × Found V :=
  match r.lookup key with
  | none => (r, ⟨false, none⟩)
  | some v => (r.use key (applyUpdate ctx v).2, ⟨(applyUpdate ctx v).1, some (applyUpdate ctx v).2⟩)

def recentCall (r : Recency K V max) : Call K V → Recency K V max × Option (Found V)
  | .add key value => (r.use key value, none)
  | .find key => ((recentFind r key none).1, some (recentFind r key none).2)
  | .findAndUpdate key ctx => ((recentFind r key ctx).1, some (recentFind r key ctx).2)
  | .erase key => (r.forget key, none)

def recentRun (r : Recency K V max) : List (Call K V) → Recency K V max × List (Option (Found V))
  | [] => (r, [])
  | c :: cs =>
    ((recentRun (recentCall r c).1 cs).1, (recentCall r c).2 :: (recentRun (recentCall r c).1 cs).2)

end Recent

structure Refines (m : LruMap K V) (l : List (K × V)) : Prop where
  nodup : (l.map Prod.fst).Nodup
  values : m.entriesLru.values = l.map Prod.fst
  entry : ∀ key v, (key, v) ∈ l ↔ ∃ e, m.entries.lookup key = some e ∧ e.value = v
  node : ∀ key e, m.entries.lookup key = some e → m.entriesLru.At e.lruIter key

namespace Refines

section

variable (h : Refines m l)
include h

theorem mem_keys : key ∈ l.map Prod.fst ↔ key ∈ m.entries := by
  rw [← AList.lookup_isSome, isSome_iff_exists, List.mem_map]
  constructor
  · rintro ⟨⟨key, v⟩, hmem, rfl⟩
    obtain ⟨e, he, -⟩ := (h.entry key v).mp hmem
    exact ⟨e, he⟩
  · rintro ⟨e, he⟩
    exact ⟨(key, e.value), (h.entry key e.value).mpr ⟨e, he, rfl⟩, rfl⟩

theorem size_eq : m.size = l.length := by
  have hperm : m.entries.keys.Perm (l.map Prod.fst) := by
    rw [perm_ext_iff_of_nodup m.entries.keys_nodup h.nodup]
    intro key
    rw [h.mem_keys, AList.mem_keys]
  simpa [AList.keys, List.keys, size] using hperm.length_eq

theorem lookup_none (hnone : m.entries.lookup key = none) : Recency.others key l = l := by
  apply Recency.others_eq_self
  rwa [h.mem_keys, ← AList.lookup_eq_none]

theorem erase_node {e : Entry V} (he : m.entries.lookup key = some e) :
    ∃ lru, m.entriesLru.erase e.lruIter = some lru ∧
    lru.values = (Recency.others key l).map Prod.fst ∧
      ∀ key' e', key' ≠ key → m.entries.lookup key' = some e' → lru.At e'.lruIter key' := by
  have hnodup : m.entriesLru.values.Nodup := h.values ▸ h.nodup
  obtain ⟨lru, herase, hvalues, hothers⟩ := (h.node key e he).erase hnodup
  refine ⟨lru, herase, ?_, fun key' e' hne he' => hothers _ _ hne (h.node key' e' he')⟩
  rw [hvalues, hnodup.erase_eq_filter, h.values, Recency.map_fst_others]
  exact filter_congr fun x _ => by rw [Bool.eq_iff_iff]; simp

/-- The entry goes to the front of the list. -/
theorem link (value : V) {lru : NodeList K}
    (hvalues : lru.values = (Recency.others key l).map Prod.fst)
    (hnodes : ∀ key' e', key' ≠ key → m.entries.lookup key' = some e' → lru.At e'.lruIter key') :
    Refines { m with
      entries := m.entries.insert key ⟨value, lru.next⟩
      entriesLru := lru.pushFront key } ((key, value) :: Recency.others key l) where
  nodup := Recency.nodup_cons_others h.nodup
  values := by
    rw [NodeList.values_pushFront, hvalues]
    rfl
  entry := by
    intro key' v
    rw [mem_cons, Recency.mem_others, h.entry]
    by_cases heq : key' = key
    · subst heq
      rw [AList.lookup_insert]
      simp [eq_comm]
    · rw [AList.lookup_insert_ne heq]
      simp [heq]
  node := by
    intro key' e' he'
    by_cases heq : key' = key
    · subst heq
      rw [AList.lookup_insert, some.injEq] at he'
      subst he'
      exact NodeList.at_pushFront_next
    · rw [AList.lookup_insert_ne heq] at he'
      exact (hnodes key' e' heq he').pushFront

/-- The entry leaves map and list together. -/
theorem unlink (key : K) {lru : NodeList K}
    (hvalues : lru.values = (Recency.others key l).map Prod.fst)
    (hnodes : ∀ key' e', key' ≠ key → m.entries.lookup key' = some e' → lru.At e'.lruIter key') :
    Refines { m with entries := m.entries.erase key, entriesLru := lru }
    (Recency.others key l) where
  nodup := Recency.nodup_others h.nodup
  values := hvalues
  entry := by
    intro key' v
    rw [Recency.mem_others, h.entry]
    by_cases heq : key' = key
    · subst heq
      rw [AList.lookup_erase]
      simp
    · rw [AList.lookup_erase_ne heq]
      simp [heq]
  node := by
    intro key' e' he'
    by_cases heq : key' = key
    · subst heq
      rw [AList.lookup_erase] at he'
      cases he'
    · rw [AList.lookup_erase_ne heq] at he'
      exact hnodes key' e' heq he'

end

/-- The last node of the list is the least recent entry. -/
theorem pop {b : K × V} (h : Refines m (l ++ [b])) : m.entriesLru.back = some b.1 ∧
    (m.entries.lookup b.1).isSome ∧
      Refines { m with entries := m.entries.erase b.1, entriesLru := m.entriesLru.popBack } l := by
  have hvalues : m.entriesLru.values = l.map Prod.fst ++ [b.1] := by rw [h.values, map_append]; rfl
  have hback : m.entriesLru.back = some b.1 := by
    rw [NodeList.back_eq_getLast?, hvalues, getLast?_concat]
  have hnew : b.1 ∉ l.map Prod.fst := by
    have hnodup := h.nodup
    rw [map_append, map_singleton, ← concat_eq_append, nodup_concat] at hnodup
    exact hnodup.1
  have hothers : Recency.others b.1 (l ++ [b]) = l := by
    rw [Recency.others, filter_append, ← Recency.others, Recency.others_eq_self hnew]
    simp
  refine ⟨hback, AList.lookup_isSome.mpr (h.mem_keys.mp (by simp)), ?_⟩
  have hpopped : m.entriesLru.popBack.values = (Recency.others b.1 (l ++ [b])).map Prod.fst := by
    rw [hothers, NodeList.values_popBack, hvalues, dropLast_concat]
  have hnodes : ∀ key' e', key' ≠ b.1 → m.entries.lookup key' = some e' →
      m.entriesLru.popBack.At e'.lruIter key' := by
    intro key' e' hne he'
    refine (h.node key' e' he').popBack ?_
    rw [hback]
    exact fun heq => hne (some.inj heq).symm
  have hkept := h.unlink b.1 hpopped hnodes
  rwa [hothers] at hkept

/-- The least recent entries are dropped. -/
theorem shrink (h : Refines m l) : ∃ m', m.shrink = some m' ∧ Refines m' (l.take m.max) ∧
    m'.max = m.max := by
  induction l using List.reverseRecOn generalizing m with
  | nil =>
    have hfits : ¬ m.max < m.size := by rw [h.size_eq]; simp
    exact ⟨m, by rw [LruMap.shrink, if_neg hfits], by simpa using h, rfl⟩
  | append_singleton l b ih =>
    have hsize := h.size_eq
    rw [length_append, length_singleton] at hsize
    by_cases hfull : m.max < m.size
    · obtain ⟨hback, hfound, hrest⟩ := h.pop
      obtain ⟨m', hm', hrefines, hmax⟩ := ih hrest
      refine ⟨m', ?_, ?_, hmax⟩
      · rw [LruMap.shrink, if_pos hfull, hback]
        simp only [dif_pos hfound]
        exact hm'
      · rwa [take_append_of_le_length (by omega)]
    · refine ⟨m, by rw [LruMap.shrink, if_neg hfull], ?_, rfl⟩
      rwa [take_of_length_le (by rw [length_append, length_singleton]; omega)]

end Refines

section Calls

variable {max : Nat} {r : Recency K V max}

def Represents (m : LruMap K V) (r : Recency K V max) : Prop := Refines m r.list ∧ m.max = max

section

variable (h : Represents m r)
include h

/-- `find` refines use of a recency list. -/
theorem Represents.findEntry (key : K) (ctx : Option (UpdateContext V)) :
    ∃ m', m.findEntry key ctx = some (m', (recentFind r key ctx).2) ∧
    Represents m' (recentFind r key ctx).1 := by
  obtain ⟨hrefines, hmax⟩ := h
  unfold recentFind LruMap.findEntry
  cases he : m.entries.lookup key with
  | none =>
    have hnone : r.lookup key = none := by
      rw [← not_isSome_iff_eq_none, Recency.lookup_isSome, Recency.keys, hrefines.mem_keys,
        ← AList.lookup_eq_none]
      exact he
    rw [hnone]
    exact ⟨m, rfl, hrefines, hmax⟩
  | some e =>
    have hmem : (key, e.value) ∈ r.list := (hrefines.entry key e.value).mpr ⟨e, he, rfl⟩
    obtain ⟨lru, herase, hvalues, hnodes⟩ := hrefines.erase_node he
    rw [Recency.lookup_eq_some.mpr hmem]
    have hlinked := hrefines.link (applyUpdate ctx e.value).2 hvalues hnodes
    rw [← Recency.list_use_of_mem hmem] at hlinked
    refine ⟨_, ?_, hlinked, hmax⟩
    simp only [herase, bind_eq_bind, bind_some]

/-- `add` refines it too, with what falls out at the end. -/
theorem Represents.add (key : K) (value : V) : ∃ m', m.add key value = some m' ∧
    Represents m' (r.use key value) := by
  obtain ⟨hrefines, rfl⟩ := h
  have hlink : ∃ lru, m.lruWithout key = some lru ∧
      Refines { m with
        entries := m.entries.insert key ⟨value, lru.next⟩
        entriesLru := lru.pushFront key } ((key, value) :: Recency.others key r.list) := by
    unfold lruWithout
    cases he : m.entries.lookup key with
    | none =>
      refine ⟨_, rfl, hrefines.link value ?_ fun key' e' _ he' => hrefines.node key' e' he'⟩
      rw [hrefines.lookup_none he, hrefines.values]
    | some e =>
      obtain ⟨lru, herase, hvalues, hnodes⟩ := hrefines.erase_node he
      exact ⟨lru, herase, hrefines.link value hvalues hnodes⟩
  obtain ⟨lru, hlru, hlinked⟩ := hlink
  obtain ⟨m', hshrink, hrest, hmax⟩ := hlinked.shrink
  refine ⟨m', ?_, hrest, hmax⟩
  unfold LruMap.add
  rw [hlru]
  exact hshrink

theorem Represents.erase (key : K) : ∃ m', m.erase key = some m' ∧
    Represents m' (r.forget key) := by
  obtain ⟨hrefines, hmax⟩ := h
  unfold LruMap.erase
  cases he : m.entries.lookup key with
  | none =>
    refine ⟨m, rfl, ?_, hmax⟩
    change Refines m (Recency.others key r.list)
    rwa [hrefines.lookup_none he]
  | some e =>
    obtain ⟨lru, herase, hvalues, hnodes⟩ := hrefines.erase_node he
    refine ⟨_, ?_, hrefines.unlink key hvalues hnodes, hmax⟩
    simp only [herase, bind_eq_bind, bind_some]

/-- Step lemma of the refinement. -/
theorem Represents.call (c : Call K V) :
    ∃ m', m.call c = some (m', (recentCall r c).2) ∧ Represents m' (recentCall r c).1 := by
  cases c with
  | add key value =>
    obtain ⟨m', hm', hrest⟩ := h.add key value
    exact ⟨m', by rw [LruMap.call, hm']; rfl, hrest⟩
  | find key =>
    obtain ⟨m', hm', hrest⟩ := h.findEntry key none
    exact ⟨m', by rw [LruMap.call, LruMap.find, hm']; rfl, hrest⟩
  | findAndUpdate key ctx =>
    obtain ⟨m', hm', hrest⟩ := h.findEntry key ctx
    exact ⟨m', by rw [LruMap.call, LruMap.findAndUpdate, hm']; rfl, hrest⟩
  | erase key =>
    obtain ⟨m', hm', hrest⟩ := h.erase key
    exact ⟨m', by rw [LruMap.call, hm']; rfl, hrest⟩

theorem Represents.run (cs : List (Call K V)) :
    ∃ m', m.run cs = some (m', (recentRun r cs).2) ∧ Represents m' (recentRun r cs).1 := by
  induction cs generalizing m r with
  | nil => exact ⟨m, rfl, h⟩
  | cons c cs ih =>
    obtain ⟨m₁, hcall, h₁⟩ := h.call c
    obtain ⟨m₂, hrun, h₂⟩ := ih h₁
    refine ⟨m₂, ?_, h₂⟩
    simp only [LruMap.run, hcall, hrun, bind_eq_bind, bind_some]
    rfl

end

theorem represents_new (max : Int) : Represents (new max : LruMap K V)
    (.empty : Recency K V (toU64 max)) :=
  ⟨⟨by simp [Recency.empty], rfl, by simp [Recency.empty, new], by simp [new]⟩, rfl⟩

end Calls

section LastValue

variable {max : Nat} {r : Recency K V max}

def noteValue (key : K) (last : Option V) : Call K V → Option V
  | .add key' value => if key' = key then some value else last
  | .find _ => last
  | .findAndUpdate key' ctx => if key' = key then last.map fun v => (applyUpdate ctx v).2 else last
  | .erase _ => last

def lastValue (key : K) (cs : List (Call K V)) : Option V := cs.foldl (noteValue key) none

theorem mem_recentFind {key' : K} {v : V} {ctx : Option (UpdateContext V)}
    (h : (key, v) ∈ (recentFind r key' ctx).1.list) :
    ∃ v₀, (key, v₀) ∈ r.list ∧ v = if key' = key then (applyUpdate ctx v₀).2 else v₀ := by
  unfold recentFind at h
  cases hfind : r.lookup key' with
  | none =>
    rw [hfind] at h
    have hne : key' ≠ key := by
      rintro rfl
      rw [Recency.lookup_eq_some.mpr h] at hfind
      cases hfind
    exact ⟨v, h, (if_neg hne).symm⟩
  | some v₀ =>
    rw [hfind] at h
    rcases Recency.mem_use h with ⟨rfl, rfl⟩ | ⟨hne, hmem⟩
    · exact ⟨v₀, Recency.lookup_eq_some.mp hfind, (if_pos rfl).symm⟩
    · exact ⟨v, hmem, (if_neg fun heq => hne heq.symm).symm⟩

theorem noteValue_of_mem {last : Option V} (hlast : ∀ v, (key, v) ∈ r.list → last = some v)
    (c : Call K V) :
    ∀ v, (key, v) ∈ (recentCall r c).1.list → noteValue key last c = some v := by
  intro v h
  cases c with
  | add key' value =>
    rcases Recency.mem_use h with ⟨rfl, rfl⟩ | ⟨hne, hmem⟩
    · exact if_pos rfl
    · rw [noteValue, if_neg fun heq => hne heq.symm]
      exact hlast v hmem
  | find key' =>
    obtain ⟨v₀, hmem, rfl⟩ := mem_recentFind h
    rw [noteValue, hlast v₀ hmem]
    simp [applyUpdate]
  | findAndUpdate key' ctx =>
    obtain ⟨v₀, hmem, rfl⟩ := mem_recentFind h
    rw [noteValue, hlast v₀ hmem]
    split_ifs <;> rfl
  | erase key' => exact hlast v (Recency.mem_others.mp h).1

theorem foldl_noteValue_of_mem (cs : List (Call K V)) {last : Option V}
    (hlast : ∀ v, (key, v) ∈ r.list → last = some v) :
    ∀ v, (key, v) ∈ (recentRun r cs).1.list → cs.foldl (noteValue key) last = some v := by
  induction cs generalizing r last with
  | nil => exact hlast
  | cons c cs ih => exact ih (noteValue_of_mem hlast c)

theorem lookup_recentRun (max : Nat) (cs : List (Call K V)) (key : K) :
    ((recentRun (.empty : Recency K V max) cs).1.lookup key) =
      if key ∈ (recentRun (.empty : Recency K V max) cs).1.keys then lastValue key cs
        else none := by
  split_ifs with hmem
  · obtain ⟨v, hv⟩ := isSome_iff_exists.mp (Recency.lookup_isSome.mpr hmem)
    rw [hv]
    exact (foldl_noteValue_of_mem cs (fun v h => by cases h) v (Recency.lookup_eq_some.mp hv)).symm
  · rwa [← not_isSome_iff_eq_none, Recency.lookup_isSome]

end LastValue

def Paired (m : LruMap K V) : Prop :=
  m.entriesLru.values.Nodup ∧ ∀ it key, m.entriesLru.At it key ↔
    ∃ e, m.entries.lookup key = some e ∧ e.lruIter = it

theorem Refines.paired (h : Refines m l) : Paired m := by
  have hnodup : m.entriesLru.values.Nodup := h.values ▸ h.nodup
  refine ⟨hnodup, fun it key => ⟨fun hat => ?_, ?_⟩⟩
  · have hkey : key ∈ l.map Prod.fst := h.values ▸ hat.mem_values
    obtain ⟨e, he⟩ := isSome_iff_exists.mp (AList.lookup_isSome.mpr (h.mem_keys.mp hkey))
    exact ⟨e, he, (h.node key e he).unique hat hnodup⟩
  · rintro ⟨e, he, rfl⟩
    exact h.node key e he

/-- After any calls the map is the list of the most recently used bindings: calls return what they
return on the list, keys stand in its order, entries and nodes are paired, there are at most `max`,
and a search finds the value added last for exactly the keys of the list. -/
theorem run_eq_recentRun (max : Int) (cs : List (Call K V)) : ∃ m, (new max : LruMap K V).run cs =
        some (m, (recentRun (.empty : Recency K V (toU64 max)) cs).2) ∧
      m.entriesLru.values = (recentRun (.empty : Recency K V (toU64 max)) cs).1.keys ∧
      Paired m ∧ m.size = m.entriesLru.length ∧ m.size ≤ toU64 max ∧ ∀ key,
        (m.find key).map Prod.snd =
        some (if key ∈ (recentRun (.empty : Recency K V (toU64 max)) cs).1.keys then
          ⟨true, lastValue key cs⟩ else ⟨false, none⟩) := by
  obtain ⟨m, hrun, hrefines, hmax⟩ := (represents_new max).run cs
  have hsize := hrefines.size_eq
  refine ⟨m, hrun, hrefines.values, hrefines.paired, ?_, ?_, fun key => ?_⟩
  · rw [hsize, ← NodeList.length_values, hrefines.values, length_map]
  · exact hsize ▸ Recency.length_le _
  · obtain ⟨m', hfind, -⟩ := Represents.findEntry ⟨hrefines, hmax⟩ key none
    have hlookup := lookup_recentRun (toU64 max) cs key
    rw [LruMap.find, hfind, recentFind]
    split_ifs with hmem
    · obtain ⟨v, hv⟩ := isSome_iff_exists.mp (Recency.lookup_isSome.mpr hmem)
      rw [if_pos hmem, hv] at hlookup
      rw [hv, ← hlookup]
      rfl
    · rw [if_neg hmem] at hlookup
      rw [hlookup]
      rfl

end RadosGateway.LruMap
