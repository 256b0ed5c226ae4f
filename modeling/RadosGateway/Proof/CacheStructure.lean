import RadosGateway.Base.Run
import RadosGateway.ObjectCache

/-!
# The structure of the object cache

The map and the list have the same names, every entry knows its place in the list, and the size is
the length of the list. The list is cut back before a name is put at its end, and not at all if the
name is at its front, so it has at most one name more than the limit.
-/

namespace RadosGateway

open Text List Option Function

namespace ObjectCache

structure Wf (limit : Nat) (s : ObjectCache) : Prop where
  keys : ∀ name, (s.cacheMap name).isSome ↔ name ∈ s.lru.values
  nodup : s.lru.values.Nodup
  size : s.lruSize = s.lru.values.length
  bound : s.lruSize ≤ limit + 1
  place : ∀ name entry, s.cacheMap name = some entry → ∃ it, entry.lruIter = some it ∧
    s.lru.At it name

variable {limit : Nat}

theorem Wf.congr {s s' : ObjectCache} (h : s.Wf limit) (hlru : s'.lru = s.lru)
    (hsize : s'.lruSize = s.lruSize)
    (hmap : ∀ name, (s'.cacheMap name).map (·.lruIter) = (s.cacheMap name).map (·.lruIter)) :
    s'.Wf limit := by
  refine ⟨?_, by rw [hlru]; exact h.nodup, by rw [hlru, hsize]; exact h.size,
    by rw [hsize]; exact h.bound, ?_⟩
  · intro name
    rw [hlru, ← h.keys name, ← isSome_map (f := ObjectCacheEntry.lruIter), hmap, isSome_map]
  · intro name entry hentry
    have hiter := hmap name
    rw [hentry] at hiter
    obtain ⟨old, hold, hsame⟩ := map_eq_some_iff.mp hiter.symm
    obtain ⟨it, hit, hat⟩ := h.place name old hold
    rw [hlru]
    exact ⟨it, hsame.symm.trans hit, hat⟩

@[simp] theorem setEntry_self (s : ObjectCache) (name : Bytes) (entry : Option ObjectCacheEntry) :
    (s.setEntry name entry).cacheMap name = entry :=
  update_self ..

theorem setEntry_of_ne (s : ObjectCache) {name m : Bytes} (hm : m ≠ name)
    (entry : Option ObjectCacheEntry) : (s.setEntry name entry).cacheMap m = s.cacheMap m :=
  update_of_ne hm ..

def doomed (name : Bytes) (n : Nat) (names : List Bytes) : List Bytes :=
  (names.take n).takeWhile (· ≠ name)

theorem name_notMem_doomed (name : Bytes) (n : Nat) (names : List Bytes) :
    name ∉ doomed name n names := by
  intro h
  simpa using mem_takeWhile_imp h

/-- `shrink_lru` drops names from the front, up to the one that is being touched. -/
theorem shrinkLru_eq (name : Bytes) {n : Nat} (s : ObjectCache) (hn : n ≤ s.lru.values.length) :
    ∃ L, s.shrinkLru name n = some { s with
        cacheMap := fun m => if m ∈ doomed name n s.lru.values then none else s.cacheMap m
        lru := L
        lruSize := s.lruSize - (doomed name n s.lru.values).length } ∧
      L.values = s.lru.values.drop (doomed name n s.lru.values).length ∧
      ∀ it m, m ∉ doomed name n s.lru.values → s.lru.At it m → L.At it m := by
  induction n generalizing s with
  | zero =>
    refine ⟨s.lru, ?_, rfl, fun _ _ _ h => h⟩
    simp [shrinkLru, doomed]
  | succ n ih =>
    cases hvalues : s.lru.values with
    | nil => simp [hvalues] at hn
    | cons front rest =>
      have hfront : s.lru.front = some front := by
        rw [NodeList.front_eq_head?, hvalues]
        rfl
      by_cases hname : front = name
      · refine ⟨s.lru, ?_, ?_, fun _ _ _ h => h⟩
        · simp [shrinkLru, hfront, hname, doomed]
        · simp [hvalues, hname, doomed]
      · have hdoomed : doomed name (n + 1) (front :: rest) = front :: doomed name n rest := by
          simp [doomed, hname]
        have hrest : s.lru.popFront.values = rest := by
          rw [NodeList.values_popFront, hvalues]
          rfl
        obtain ⟨L, hL, hLvalues, hLat⟩ := ih
          { s.setEntry front none with lru := s.lru.popFront, lruSize := s.lruSize - 1 }
          (by
            rw [hvalues] at hn
            simp only [hrest]
            simpa using hn)
        simp only [hrest, setEntry] at hL hLvalues hLat
        refine ⟨L, ?_, ?_, ?_⟩
        · simp only [shrinkLru, hfront, hname, if_false, setEntry, hL, hdoomed]
          simp only [some.injEq, ObjectCache.mk.injEq, length_cons, and_true, true_and]
          constructor
          · funext m
            by_cases hm : m = front
            · simp [hm]
            · simp [hm]
          · omega
        · rw [hdoomed, hLvalues]
          rfl
        · intro it m hm hat
          rw [hdoomed, mem_cons, not_or] at hm
          apply hLat it m hm.2
          apply hat.popFront
          rw [hfront]
          simpa using Ne.symm hm.1

structure Touchable (name : Bytes) (s : ObjectCache) : Prop where
  keys : ∀ m, m ≠ name → ((s.cacheMap m).isSome ↔ m ∈ s.lru.values)
  nodup : s.lru.values.Nodup
  size : s.lruSize = s.lru.values.length
  place : ∀ m entry, m ≠ name → s.cacheMap m = some entry → ∃ it, entry.lruIter = some it ∧
    s.lru.At it m
  here : ∃ entry, s.cacheMap name = some entry ∧
    (entry.lruIter = none ∧ name ∉ s.lru.values ∨ ∃ it, entry.lruIter = some it ∧ s.lru.At it name)

variable {s : ObjectCache} {name : Bytes} {entry : ObjectCacheEntry}

theorem Wf.touchable (h : s.Wf limit) (hentry : s.cacheMap name = some entry) : s.Touchable name :=
  ⟨fun m _ => h.keys m, h.nodup, h.size, fun m e _ => h.place m e, entry, hentry,
    .inr (h.place name entry hentry)⟩

theorem unlinked_eq {iter : Option Nat} (hnodup : s.lru.values.Nodup)
    (hsize : s.lruSize = s.lru.values.length)
    (hiter : iter = none ∧ name ∉ s.lru.values ∨ ∃ it, iter = some it ∧ s.lru.At it name) :
    ∃ L, s.unlinked iter = some (L, (s.lru.values.erase name).length + 1) ∧
      L.values = s.lru.values.erase name ∧ ∀ it m, m ≠ name → s.lru.At it m → L.At it m := by
  rcases hiter with ⟨rfl, hnew⟩ | ⟨it, rfl, hat⟩
  · refine ⟨s.lru, ?_, (erase_of_not_mem hnew).symm, fun _ _ _ h => h⟩
    rw [unlinked, erase_of_not_mem hnew, hsize]
  · obtain ⟨L, herase, hvalues, hkeep⟩ := hat.erase hnodup
    have hlength := length_erase_add_one hat.mem_values
    refine ⟨L, ?_, hvalues, hkeep⟩
    rw [unlinked, herase, hsize, hlength]
    rfl

theorem doomed_append_drop (name : Bytes) (n : Nat) (names : List Bytes) :
    doomed name n names ++ names.drop (doomed name n names).length = names := by
  have hpre : doomed name n names <+: names :=
    (List.takeWhile_prefix _).trans (List.take_prefix n names)
  have htake := prefix_iff_eq_take.mp hpre
  generalize hlength : (doomed name n names).length = k at htake ⊢
  rw [htake, take_append_drop]

theorem length_doomed_of_notMem {n : Nat} {names : List Bytes} (h : name ∉ names)
    (hn : n ≤ names.length) : (doomed name n names).length = n := by
  have hall : (names.take n).takeWhile (· ≠ name) = names.take n := by
    apply takeWhile_eq_self_iff.mpr
    intro m hm
    have hne : m ≠ name := by
      rintro rfl
      exact h (mem_of_mem_take hm)
    simpa using hne
  rw [doomed, hall, length_take, Nat.min_eq_left hn]

/-- `touch_lru` succeeds on any entry of a sound cache and keeps it sound. -/
theorem touchLru_eq (h : s.Touchable name)
    (hbound : s.lruSize ≤ limit + 1) : ∃ s' entry it, s.touchLru limit name = some s' ∧
    s'.Wf limit ∧
      s.cacheMap name = some entry ∧
      s'.cacheMap name =
        some { entry with lruIter := some it, lruPromotionTs := s.lruCounter + 1 } ∧
      (∀ m, m ≠ name → s'.cacheMap m =
        if m ∈ doomed name (s.lruSize - limit) s.lru.values then none else s.cacheMap m) ∧
      s'.enabled = s.enabled ∧ s'.chained = s.chained := by
  obtain ⟨entry, hentry, hplace⟩ := h.here
  have hsplit := doomed_append_drop name (s.lruSize - limit) s.lru.values
  have hrounds : s.lruSize - limit ≤ s.lru.values.length := by
    rw [h.size]
    omega
  have hlength : name ∉ s.lru.values →
      (doomed name (s.lruSize - limit) s.lru.values).length = s.lruSize - limit :=
    fun hnew => length_doomed_of_notMem hnew hrounds
  obtain ⟨L, hshrink, hLvalues, hLat⟩ := shrinkLru_eq name s hrounds
  have hname : name ∉ doomed name (s.lruSize - limit) s.lru.values := name_notMem_doomed _ _ _
  generalize doomed name (s.lruSize - limit) s.lru.values = gone at *
  rw [← hLvalues] at hsplit
  have hnodup : (gone ++ L.values).Nodup := by
    rw [hsplit]
    exact h.nodup
  have hLsize : s.lruSize - gone.length = L.values.length := by
    rw [h.size, ← hsplit, length_append]
    omega
  have hmem : ∀ m, m ∉ gone → (m ∈ L.values ↔ m ∈ s.lru.values) := by
    intro m hm
    rw [← hsplit, mem_append]
    simp [hm]
  have hLplace : entry.lruIter = none ∧ name ∉ L.values ∨ ∃ it, entry.lruIter = some it ∧
      L.At it name := by
    rcases hplace with ⟨hnone, hnew⟩ | ⟨it, hit, hat⟩
    · exact .inl ⟨hnone, fun hin => hnew ((hmem name hname).mp hin)⟩
    · exact .inr ⟨it, hit, hLat it name hname hat⟩
  have hLnodup := hnodup.of_append_right
  obtain ⟨L', hunlinked, hvalues', hat'⟩ := unlinked_eq
    (s := { s with
      cacheMap := fun m => if m ∈ gone then none else s.cacheMap m
      lru := L
      lruSize := s.lruSize - gone.length }) hLnodup hLsize hLplace
  obtain ⟨map, hmap⟩ : ∃ map, map = Function.update (fun m => if m ∈ gone then none
    else s.cacheMap m)
      name (some { entry with lruIter := some L'.next, lruPromotionTs := s.lruCounter + 1 }) :=
        ⟨_, rfl⟩
  have hnew : map name = some { entry with
      lruIter := some L'.next, lruPromotionTs := s.lruCounter + 1 } := by
    rw [hmap, update_self]
  have hold : ∀ m, m ≠ name → map m = if m ∈ gone then none else s.cacheMap m := by
    intro m hm
    rw [hmap, update_of_ne hm]
  refine ⟨{ s with
      cacheMap := map
      lru := L'.pushBack name
      lruSize := (L.values.erase name).length + 1
      lruCounter := s.lruCounter + 1 }, entry, L'.next, ?_, ?_, hentry, hnew, hold, rfl, rfl⟩
  · simp only [touchLru, hshrink, bind_eq_bind, bind_some, hname, if_false, hentry, hunlinked,
      setEntry, hmap]
  refine ⟨?_, ?_, ?_, ?_, ?_⟩
  · intro m
    change (map m).isSome ↔ m ∈ (L'.pushBack name).values
    rw [NodeList.values_pushBack, hvalues', mem_append, mem_singleton]
    by_cases hm : m = name
    · simp [hm, hnew]
    · rw [hold m hm, or_iff_left hm, mem_erase_of_ne hm]
      by_cases hgone : m ∈ gone
      · have hnot : m ∉ L.values := fun hin => (disjoint_of_nodup_append hnodup) hgone hin
        simp [hgone, hnot]
      · rw [if_neg hgone, hmem m hgone]
        exact h.keys m hm
  · rw [NodeList.values_pushBack, hvalues']
    refine List.Nodup.append (hLnodup.erase name) (nodup_singleton name) ?_
    rw [disjoint_singleton]
    exact hLnodup.not_mem_erase
  · rw [NodeList.values_pushBack, hvalues', length_append, length_singleton]
  · change (L.values.erase name).length + 1 ≤ limit + 1
    by_cases hin : name ∈ L.values
    · rw [length_erase_add_one hin, ← hLsize]
      omega
    · have hnew : name ∉ s.lru.values := fun h => hin ((hmem name hname).mpr h)
      rw [erase_of_not_mem hin, ← hLsize, hlength hnew]
      omega
  · intro m e he
    change map m = some e at he
    by_cases hm : m = name
    · rw [hm, hnew] at he
      cases he
      exact ⟨L'.next, rfl, hm ▸ NodeList.at_pushBack_next⟩
    · rw [hold m hm] at he
      by_cases hgone : m ∈ gone
      · rw [if_pos hgone] at he
        cases he
      · rw [if_neg hgone] at he
        obtain ⟨it, hit, hat⟩ := h.place m e hm he
        exact ⟨it, hit, (hat' it m hm (hLat it m hgone hat)).pushBack⟩

def content (entry : ObjectCacheEntry) : ObjectCacheInfo × UInt64 × List (ChainedCache × Bytes) :=
  (entry.info, entry.gen, entry.chainedEntries)

theorem touchLru_content (h : s.Touchable name)
    (hbound : s.lruSize ≤ limit + 1) : ∃ s', s.touchLru limit name = some s' ∧ s'.Wf limit ∧
      (∀ m, (s'.cacheMap m).map content =
        if m ∈ doomed name (s.lruSize - limit) s.lru.values then none
        else (s.cacheMap m).map content) ∧ s'.enabled = s.enabled ∧ s'.chained = s.chained := by
  obtain ⟨s', entry, it, htouch, hwf, hentry, hnew, hold, henabled, hchained⟩ :=
  touchLru_eq h hbound
  refine ⟨s', htouch, hwf, ?_, henabled, hchained⟩
  intro m
  by_cases hm : m = name
  · rw [hm, if_neg (name_notMem_doomed _ _ _), hnew, hentry]
    rfl
  · rw [hold m hm]
    split <;> rfl

def evicted (limit : Nat) (s : ObjectCache) : CacheOp → List Bytes
  | .get name _ =>
    match s.cacheMap name with
    | some entry =>
      if s.enabled ∧ s.lruWindow < s.lruCounter - entry.lruPromotionTs then
        doomed name (s.lruSize - limit) s.lru.values
      else []
    | none => []
  | .put name _ => if s.enabled then doomed name (s.lruSize - limit) s.lru.values else []
  | _ => []

def lookup (s : ObjectCache) (name : Bytes) (mask : CacheFlags) :
    Option (ObjectCacheInfo × UInt64) :=
  if s.enabled then
    ((s.cacheMap name).map content).bind fun c =>
      if c.1.flags.covers mask then some (c.1, c.2.1) else none
  else none

/-- `get` in closed form. -/
theorem get_eq (h : s.Wf limit) (name : Bytes) (mask : CacheFlags) :
    ∃ s', s.get limit name mask = some (s.lookup name mask, s') ∧ s'.Wf limit ∧
    (∀ m, (s'.cacheMap m).map content =
        if m ∈ s.evicted limit (.get name mask) then none else (s.cacheMap m).map content) ∧
      s'.enabled = s.enabled ∧ s'.chained = s.chained := by
  by_cases hen : s.enabled = true
  · cases hentry : s.cacheMap name with
    | none =>
      refine ⟨s, ?_, h, ?_, rfl, rfl⟩
      · simp [get, lookup, hen, hentry]
      · simp [evicted, hentry]
    | some entry =>
      by_cases hdue : s.lruWindow < s.lruCounter - entry.lruPromotionTs
      · obtain ⟨s', htouch, hwf, hmap, henabled, hchained⟩ :=
          touchLru_content (h.touchable hentry) h.bound
        have hevicted : s.evicted limit (.get name mask) =
            doomed name (s.lruSize - limit) s.lru.values := by
          simp [evicted, hentry, hen, hdue]
        rw [hevicted]
        refine ⟨s', ?_, hwf, hmap, henabled, hchained⟩
        have hhere := hmap name
        rw [if_neg (name_notMem_doomed _ _ _), hentry] at hhere
        obtain ⟨entry', hentry', hsame⟩ := map_eq_some_iff.mp hhere
        obtain ⟨hinfo, hrest⟩ := Prod.mk.inj hsame
        obtain ⟨hgen, -⟩ := Prod.mk.inj hrest
        simp only [get, lookup, hen, hentry, hdue, htouch, hentry', hinfo, hgen, content,
          Bool.not_true, Bool.false_eq_true, if_false, if_true, bind_eq_bind,
          bind_some, map_some]
        split <;> rfl
      · refine ⟨s, ?_, h, ?_, rfl, rfl⟩
        · simp only [get, lookup, hen, hentry, hdue, content, Bool.not_true, Bool.false_eq_true,
            if_false, if_true, bind_eq_bind, bind_some, map_some]
          split <;> rfl
        · simp [evicted, hentry, hdue]
  · refine ⟨s, ?_, h, ?_, rfl, rfl⟩
    · simp [get, lookup, hen]
    · have hnone : s.evicted limit (.get name mask) = [] := by
        cases hentry : s.cacheMap name <;> simp [evicted, hentry, hen]
      simp [hnone]

theorem Wf.touchable_setEntry {s s' : ObjectCache} (h : s.Wf limit) (hlru : s'.lru = s.lru)
    (hsize : s'.lruSize = s.lruSize)
    (hmap : s'.cacheMap = Function.update s.cacheMap name (some entry))
    (hiter : entry.lruIter = (s.cacheMap name).bind (·.lruIter)) : s'.Touchable name := by
  have hold : ∀ m, m ≠ name → s'.cacheMap m = s.cacheMap m := by
    intro m hm
    rw [hmap, update_of_ne hm]
  refine ⟨?_, ?_, ?_, ?_, entry, ?_, ?_⟩
  · intro m hm
    rw [hold m hm, hlru]
    exact h.keys m
  · rw [hlru]
    exact h.nodup
  · rw [hlru, hsize]
    exact h.size
  · intro m e hm he
    rw [hold m hm] at he
    rw [hlru]
    exact h.place m e he
  · rw [hmap, update_self]
  · rw [hlru]
    cases hentry : s.cacheMap name with
    | none =>
      refine .inl ⟨?_, ?_⟩
      · rw [hiter, hentry]
        rfl
      · intro hin
        simpa [hentry] using (h.keys name).mpr hin
    | some old =>
      obtain ⟨it, hit, hat⟩ := h.place name old hentry
      refine .inr ⟨it, ?_, hat⟩
      rw [hiter, hentry]
      exact hit

def chainedOf (s : ObjectCache) (name : Bytes) : List (ChainedCache × Bytes) :=
  ((s.cacheMap name).map (·.chainedEntries)).getD []

def putContent (s : ObjectCache) (name : Bytes) (info : ObjectCacheInfo) :
    ObjectCacheInfo × UInt64 × List (ChainedCache × Bytes) :=
  (merge ((s.cacheMap name).getD {}).info info, ((s.cacheMap name).getD {}).gen + 1, [])

/-- `put` in closed form. -/
theorem put_eq (h : s.Wf limit) (hen : s.enabled = true)
    (name : Bytes) (info : ObjectCacheInfo) : ∃ s', s.put limit name info = some s' ∧ s'.Wf limit ∧
      (∀ m, (s'.cacheMap m).map content = if m = name then some (s.putContent name info)
        else if m ∈ s.evicted limit (.put name info) then none else (s.cacheMap m).map content) ∧
      s'.enabled = true ∧ s'.chained = (s.invalidateChained (s.chainedOf name)).chained := by
  obtain ⟨old, hold⟩ : ∃ old, old = (s.cacheMap name).getD {} := ⟨_, rfl⟩
  have hchainedOf : old.chainedEntries = s.chainedOf name := by
    rw [hold, chainedOf]
    cases s.cacheMap name <;> rfl
  have hiter : old.lruIter = (s.cacheMap name).bind (·.lruIter) := by
    rw [hold]
    cases s.cacheMap name <;> rfl
  obtain ⟨s₁, hs₁⟩ : ∃ s₁, s₁ = (s.invalidateChained old.chainedEntries).setEntry name
    (some { old with chainedEntries := [], gen := old.gen + 1 }) := ⟨_, rfl⟩
  have hmap₁ : s₁.cacheMap = Function.update s.cacheMap name
      (some { old with chainedEntries := [], gen := old.gen + 1 }) := by
    rw [hs₁]
    rfl
  have hlru₁ : s₁.lru = s.lru := by rw [hs₁]; rfl
  have hsize₁ : s₁.lruSize = s.lruSize := by rw [hs₁]; rfl
  have hready : s₁.Touchable name := h.touchable_setEntry hlru₁ hsize₁ hmap₁ hiter
  obtain ⟨s₂, htouch, hwf, hmap, henabled, hchained⟩ :=
    touchLru_content hready (by rw [hsize₁]; exact h.bound)
  rw [hlru₁, hsize₁] at hmap
  have hhere := hmap name
  rw [if_neg (name_notMem_doomed _ _ _), hmap₁, update_self] at hhere
  obtain ⟨entry, hentry, hsame⟩ := map_eq_some_iff.mp hhere
  obtain ⟨hinfo, hrest⟩ := Prod.mk.inj hsame
  obtain ⟨hgen, hentries⟩ := Prod.mk.inj hrest
  refine ⟨s₂.setEntry name (some { entry with info := merge entry.info info }), ?_, ?_, ?_, ?_, ?_⟩
  · simp only [put, hen, Bool.not_true, Bool.false_eq_true, if_false, ← hold, ← hs₁, htouch, hentry,
      bind_eq_bind, bind_some]
  · refine hwf.congr rfl rfl ?_
    intro m
    by_cases hm : m = name
    · rw [hm, setEntry_self, hentry]
      rfl
    · rw [setEntry_of_ne _ hm]
  · intro m
    by_cases hm : m = name
    · rw [if_pos hm, hm, setEntry_self]
      simp only [map_some, content, putContent, hinfo, hgen, hentries, ← hold]
    · have hother : s₁.cacheMap m = s.cacheMap m := by rw [hmap₁, update_of_ne hm]
      rw [if_neg hm, setEntry_of_ne _ hm, hmap m, hother]
      simp only [evicted, hen, if_true]
  · change s₂.enabled = true
    rw [henabled, hs₁]
    exact hen
  · change s₂.chained = _
    rw [hchained, hs₁, hchainedOf]
    rfl

/-- `remove` in closed form. -/
theorem remove_eq (h : s.Wf limit) (hen : s.enabled = true) (name : Bytes) :
    ∃ s', s.remove name = some s' ∧ s'.Wf limit ∧
    (∀ m, s'.cacheMap m = if m = name then none else s.cacheMap m) ∧
      s'.enabled = true ∧ s'.chained = (s.invalidateChained (s.chainedOf name)).chained := by
  cases hentry : s.cacheMap name with
  | none =>
    refine ⟨s, ?_, h, ?_, hen, ?_⟩
    · simp [remove, hen, hentry]
    · intro m
      by_cases hm : m = name
      · rw [if_pos hm, hm, hentry]
      · rw [if_neg hm]
    · simp [invalidateChained, chainedOf, hentry]
  | some entry =>
    obtain ⟨it, hit, hat⟩ := h.place name entry hentry
    obtain ⟨L, herase, hvalues, hkeep⟩ := hat.erase h.nodup
    have hlength := length_erase_add_one hat.mem_values
    have hsize := h.size
    have hbound := h.bound
    refine ⟨{ (s.invalidateChained entry.chainedEntries).setEntry name none with
      lru := L, lruSize := s.lruSize - 1 }, ?_, ⟨?_, ?_, ?_, ?_, ?_⟩, ?_, hen, ?_⟩
    · have hremove : (s.invalidateChained entry.chainedEntries).removeLru entry.lruIter =
          some (L, s.lruSize - 1) := by
        rw [hit, removeLru]
        change (s.lru.erase it).map _ = _
        rw [herase]
        rfl
      simp only [remove, hen, hentry, hremove, Bool.not_true, Bool.false_eq_true, if_false,
        bind_eq_bind, bind_some]
    · intro m
      by_cases hm : m = name
      · have hgone := h.nodup.not_mem_erase (a := name)
        rw [hm, setEntry_self, hvalues]
        simp [hgone]
      · rw [setEntry_of_ne _ hm, hvalues, mem_erase_of_ne hm]
        exact h.keys m
    · rw [hvalues]
      exact h.nodup.erase name
    · change s.lruSize - 1 = L.values.length
      rw [hvalues]
      omega
    · change s.lruSize - 1 ≤ limit + 1
      omega
    · intro m e he
      by_cases hm : m = name
      · rw [hm, setEntry_self] at he
        cases he
      · rw [setEntry_of_ne _ hm] at he
        obtain ⟨jt, hjt, hatm⟩ := h.place m e he
        exact ⟨jt, hjt, hkeep jt m hm hatm⟩
    · intro m
      change (s.setEntry name none).cacheMap m = _
      by_cases hm : m = name
      · rw [if_pos hm, hm, setEntry_self]
      · rw [if_neg hm, setEntry_of_ne _ hm]
    · have hchainedOf : s.chainedOf name = entry.chainedEntries := by
        rw [chainedOf, hentry]
        rfl
      rw [hchainedOf]
      rfl

theorem wf_invalidateAll (limit : Nat) (s : ObjectCache) : s.invalidateAll.Wf limit := by
  refine ⟨?_, ?_, ?_, ?_, ?_⟩
  · simp [invalidateAll]
  · simp [invalidateAll]
  · simp [invalidateAll]
  · simp [invalidateAll]
  · intro name entry h
    cases h

theorem Wf.setEnabled (h : s.Wf limit) (status : Bool) : (s.setEnabled status).Wf limit := by
  cases status with
  | true => exact h.congr rfl rfl fun _ => rfl
  | false => exact wf_invalidateAll ..

theorem Wf.chainCacheEntry (h : s.Wf limit) (infos : List (Bytes × UInt64)) (c : ChainedCache)
    (key record : Bytes) :
    (s.chainCacheEntry infos c key record).2.Wf limit := by
  rw [ObjectCache.chainCacheEntry]
  split
  · exact h
  · split
    · refine h.congr rfl rfl ?_
      intro name
      rw [Option.map_map]
      rfl
    · exact h

/-- Step lemma: no operation fails or breaks the list. -/
theorem Wf.step {lruLimit : Int} (h : s.Wf (toU64 lruLimit)) (op : CacheOp) :
    ∃ s', s.step lruLimit op = some s' ∧ s'.Wf (toU64 lruLimit) := by
  cases op with
  | get name mask =>
    obtain ⟨s', hget, hwf, -⟩ := get_eq h name mask
    refine ⟨s', ?_, hwf⟩
    rw [ObjectCache.step, hget]
    rfl
  | put name info =>
    by_cases hen : s.enabled = true
    · obtain ⟨s', hput, hwf, -⟩ := put_eq h hen name info
      exact ⟨s', hput, hwf⟩
    · refine ⟨s, ?_, h⟩
      simp [ObjectCache.step, put, hen]
  | remove name =>
    by_cases hen : s.enabled = true
    · obtain ⟨s', hremove, hwf, -⟩ := remove_eq h hen name
      exact ⟨s', hremove, hwf⟩
    · refine ⟨s, ?_, h⟩
      simp [ObjectCache.step, remove, hen]
  | setEnabled status => exact ⟨_, rfl, h.setEnabled status⟩
  | invalidateAll => exact ⟨_, rfl, wf_invalidateAll ..⟩
  | chain infos c key record => exact ⟨_, rfl, h.chainCacheEntry infos c key record⟩

theorem wf_init (lruLimit : Int) : (ObjectCache.init lruLimit).Wf (toU64 lruLimit) := by
  refine ⟨?_, ?_, rfl, Nat.zero_le _, ?_⟩
  · simp [ObjectCache.init, setCtx]
  · simp [ObjectCache.init, setCtx]
  · intro name entry h
    cases h

theorem Wf.run {lruLimit : Int} (h : s.Wf (toU64 lruLimit)) (ops : List CacheOp) :
    ∃ s', ops.foldlM (ObjectCache.step lruLimit) s = some s' ∧ s'.Wf (toU64 lruLimit) := by
  induction ops generalizing s with
  | nil => exact ⟨s, rfl, h⟩
  | cons op ops ih =>
    obtain ⟨s₁, hstep, hwf₁⟩ := h.step op
    obtain ⟨s₂, hrest, hwf₂⟩ := ih hwf₁
    refine ⟨s₂, ?_, hwf₂⟩
    rw [foldlM_cons, hstep]
    exact hrest

/-- The operation puts a name that is not in the cache. -/
def Adds (s : ObjectCache) : CacheOp → Prop
  | .put name _ => s.enabled = true ∧ s.cacheMap name = none
  | _ => False

theorem Wf.size_le {s' : ObjectCache} (h : s.Wf limit) (h' : s'.Wf limit)
    (hmap : ∀ m, (s'.cacheMap m).isSome → (s.cacheMap m).isSome) : s'.lruSize ≤ s.lruSize := by
  rw [h.size, h'.size]
  refine (h'.nodup.subperm fun m hm => ?_).length_le
  exact (h.keys m).mp (hmap m ((h'.keys m).mpr hm))

theorem evicted_of_size_le (h : s.lruSize ≤ limit) (op : CacheOp) : s.evicted limit op = [] := by
  have hnone : ∀ name, doomed name (s.lruSize - limit) s.lru.values = [] := by
    intro name
    rw [Nat.sub_eq_zero_of_le h, doomed, take_zero, takeWhile_nil]
  cases op with
  | get name mask => cases hentry : s.cacheMap name <;> simp [evicted, hentry, hnone]
  | put name info => simp [evicted, hnone]
  | _ => rfl

/-- One name more in the map is one more in the list. -/
theorem Wf.size_of_keys {limit : Nat} {s' : ObjectCache} (h : s.Wf limit) (hwf : s'.Wf limit)
    (hkeys : ∀ m, (s'.cacheMap m).isSome ↔ m = name ∨ (s.cacheMap m).isSome)
    (hnew : s.cacheMap name = none) : s'.lruSize = s.lruSize + 1 := by
  have hfresh : name ∉ s.lru.values := by simp [← h.keys, hnew]
  have hperm : s'.lru.values ~ name :: s.lru.values := by
    refine (perm_ext_iff_of_nodup hwf.nodup (nodup_cons.mpr ⟨hfresh, h.nodup⟩)).mpr fun m => ?_
    rw [← hwf.keys, hkeys, mem_cons, h.keys]
  rw [hwf.size, hperm.length_eq, length_cons, h.size]

/-- As long as the limit is kept nothing is dropped, so the size grows with the names that are
added. -/
theorem Wf.size_step {lruLimit : Int} {s' : ObjectCache} (h : s.Wf (toU64 lruLimit))
    (hlimit : s.lruSize ≤ toU64 lruLimit) {op : CacheOp} (hstep : s.step lruLimit op = some s') :
    (s.Adds op → s'.lruSize = s.lruSize + 1) ∧ (¬ s.Adds op → s'.lruSize ≤ s.lruSize) := by
  obtain ⟨s₁, hstep₁, hwf⟩ := h.step op
  obtain rfl : s₁ = s' := some.inj (hstep₁.symm.trans hstep)
  have hevicted := evicted_of_size_le hlimit op
  cases op with
  | get name mask =>
    obtain ⟨s₂, hget, -, hmap, -⟩ := get_eq h name mask
    obtain rfl : s₂ = s₁ := by simpa [ObjectCache.step, hget] using hstep
    refine ⟨False.elim, fun _ => h.size_le hwf fun m hm => ?_⟩
    have hsame := hmap m
    rw [hevicted, if_neg not_mem_nil] at hsame
    rwa [← isSome_map (f := content), hsame, isSome_map] at hm
  | put name info =>
    by_cases hen : s.enabled = true
    · obtain ⟨s₂, hput, -, hmap, -⟩ := put_eq h hen name info
      obtain rfl : s₂ = s₁ := some.inj (hput.symm.trans hstep)
      have hkeys : ∀ m, (s₂.cacheMap m).isSome ↔ m = name ∨ (s.cacheMap m).isSome := by
        intro m
        rw [← isSome_map (f := content), hmap m, hevicted, if_neg not_mem_nil]
        split_ifs with hm <;> simp [hm]
      constructor
      · exact fun hadds => h.size_of_keys hwf hkeys hadds.2
      · intro hadds
        refine h.size_le hwf fun m hm => ?_
        rcases (hkeys m).mp hm with rfl | hold
        · exact isSome_iff_ne_none.mpr fun hnew => hadds ⟨hen, hnew⟩
        · exact hold
    · obtain rfl : s = s₁ := by simpa [ObjectCache.step, put, hen] using hstep
      exact ⟨fun hadds => absurd hadds.1 hen, fun _ => le_rfl⟩
  | remove name =>
    refine ⟨False.elim, fun _ => ?_⟩
    by_cases hen : s.enabled = true
    · obtain ⟨s₂, hremove, -, hmap, -⟩ := remove_eq h hen name
      obtain rfl : s₂ = s₁ := some.inj (hremove.symm.trans hstep)
      refine h.size_le hwf fun m hm => ?_
      rw [hmap m] at hm
      split_ifs at hm
      · cases hm
      · exact hm
    · obtain rfl : s = s₁ := by simpa [ObjectCache.step, remove, hen] using hstep
      exact le_rfl
  | setEnabled status =>
    obtain rfl := some.inj hstep
    refine ⟨False.elim, fun _ => ?_⟩
    cases status with
    | true => exact le_rfl
    | false => exact Nat.zero_le _
  | invalidateAll =>
    obtain rfl := some.inj hstep
    exact ⟨False.elim, fun _ => Nat.zero_le _⟩
  | chain infos c key record =>
    obtain rfl := some.inj hstep
    refine ⟨False.elim, fun _ => h.size_le hwf fun m hm => ?_⟩
    rw [ObjectCache.chainCacheEntry] at hm
    split_ifs at hm
    · exact hm
    · rwa [isSome_map] at hm
    · exact hm

section Limit

variable (lruLimit : Int) (ops : List CacheOp)

/-- After each of the operations the list is no longer than the limit. -/
def KeepsLimit : Prop := ∀ front back s, ops = front ++ back →
  front.foldlM (ObjectCache.step lruLimit) (ObjectCache.init lruLimit) = some s →
    s.lruSize ≤ toU64 lruLimit

/-- A name is only added to a list that is shorter than the limit. -/
def HasRoom : Prop := ∀ front op back s, ops = front ++ op :: back →
  front.foldlM (ObjectCache.step lruLimit) (ObjectCache.init lruLimit) = some s → s.Adds op →
    s.lruSize < toU64 lruLimit

variable {lruLimit ops}

theorem foldlM_concat {front : List CacheOp} {op : CacheOp} {s : ObjectCache}
    (h : front.foldlM (ObjectCache.step lruLimit) (ObjectCache.init lruLimit) = some s) :
    (front ++ [op]).foldlM (ObjectCache.step lruLimit)
    (ObjectCache.init lruLimit) = s.step lruLimit op := by
  rw [foldlM_append, h]
  simp

/-- The list is kept within the limit exactly if no name is ever added to a full one. -/
theorem keepsLimit_iff_hasRoom : KeepsLimit lruLimit ops ↔ HasRoom lruLimit ops := by
  have hreached : ∀ (front : List CacheOp) (s : ObjectCache),
      front.foldlM (ObjectCache.step lruLimit) (ObjectCache.init lruLimit) = some s →
      s.Wf (toU64 lruLimit) := by
    intro front s hfront
    obtain ⟨s', hrun, hwf⟩ := (wf_init lruLimit).run front
    exact some.inj (hrun.symm.trans hfront) ▸ hwf
  constructor
  · intro h front op back s hops hfront hadds
    obtain ⟨s', hstep, -⟩ := (hreached front s hfront).step op
    have hbefore := h front (op :: back) s hops hfront
    have hafter := h (front ++ [op]) back s' (by simp [hops]) ((foldlM_concat hfront).trans hstep)
    have hsize := ((hreached front s hfront).size_step hbefore hstep).1 hadds
    omega
  · intro h front
    induction front using reverseRecOn with
    | nil =>
      intro back s _ hfront
      obtain rfl := some.inj hfront
      exact Nat.zero_le _
    | append_singleton front op ih =>
      intro back s' hops hfront
      rw [append_assoc, singleton_append] at hops
      obtain ⟨s, hrun, hwf⟩ := (wf_init lruLimit).run front
      have hbefore := ih _ s hops hrun
      have hsize := hwf.size_step hbefore ((foldlM_concat hrun).symm.trans hfront)
      by_cases hadds : s.Adds op
      · have hroom := h front op back s hops hrun hadds
        have hgrown := hsize.1 hadds
        omega
      · exact (hsize.2 hadds).trans hbefore

end Limit

end RadosGateway.ObjectCache
