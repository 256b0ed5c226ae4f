import RadosGateway.Proof.CacheStructure

/-!
# Chained records and the objects they are derived from

A chained record is dropped when one of the objects it was derived from is put or removed, because
the entry of that object lists it. `put` and `remove` invalidate what an entry lists; `touchLru`
drops entries and does not.
-/

namespace RadosGateway.ObjectCache

open Text List Option Function

variable {s : ObjectCache} {lruLimit : Int} {name : Bytes}

structure Coherent (s : ObjectCache) : Prop where
  listed : ∀ c key ch, s.chained c key = some ch → ∀ name ∈ ch.sources, (c, key) ∈ s.chainedOf name
  disabled : s.enabled = false → ∀ c key, s.chained c key = none

def DropsNoChained (lruLimit : Int) (s : ObjectCache) (op : CacheOp) : Prop :=
  ∀ name ∈ s.evicted (toU64 lruLimit) op, ∀ link ∈ s.chainedOf name, s.chained link.1 link.2 = none

instance (lruLimit : Int) (s : ObjectCache) (op : CacheOp) :
    Decidable (s.DropsNoChained lruLimit op) := by
  unfold DropsNoChained
  infer_instance

theorem chainedOf_eq_content (s : ObjectCache) (name : Bytes) :
    s.chainedOf name = (((s.cacheMap name).map content).map (·.2.2)).getD [] := by
  rw [chainedOf, Option.map_map]
  rfl

theorem mem_chainedOf {link : ChainedCache × Bytes} :
    link ∈ s.chainedOf name ↔ ∃ entry, s.cacheMap name = some entry ∧
    link ∈ entry.chainedEntries := by
  rw [chainedOf]
  cases s.cacheMap name <;> simp

theorem chained_invalidateChained (s : ObjectCache) (links : List (ChainedCache × Bytes))
    (c : ChainedCache) (key : Bytes) : (s.invalidateChained links).chained c key =
      if (c, key) ∈ links then none else s.chained c key :=
  rfl

variable {c : ChainedCache} {key : Bytes} {ch : ChainedRecord} {op : CacheOp}

theorem chained_of_invalidateChained {links : List (ChainedCache × Bytes)}
    (h : (s.invalidateChained links).chained c key = some ch) :
    (c, key) ∉ links ∧ s.chained c key = some ch := by
  rw [chained_invalidateChained] at h
  split at h
  · cases h
  · exact ⟨‹_›, h⟩

theorem exists_of_stillValid {info : Bytes × UInt64} (h : s.stillValid info = true) :
    ∃ entry, s.cacheMap info.1 = some entry := by
  rw [stillValid] at h
  cases hentry : s.cacheMap info.1 with
  | none => simp [hentry] at h
  | some entry => exact ⟨entry, rfl⟩

variable {s' : ObjectCache}

theorem Coherent.shrink (h : s.Coherent) (henabled : s'.enabled = s.enabled)
    (hsub : ∀ c key ch, s'.chained c key = some ch → s.chained c key = some ch ∧
      ∀ n, (c, key) ∈ s.chainedOf n → (c, key) ∈ s'.chainedOf n) : s'.Coherent where
  listed c key ch hch n hn := (hsub c key ch hch).2 n (h.listed c key ch (hsub c key ch hch).1 n hn)
  disabled hdis c key := by
    rw [eq_none_iff_forall_ne_some]
    intro ch hch
    rw [henabled] at hdis
    exact ne_none_iff_exists'.mpr ⟨ch, (hsub c key ch hch).1⟩ (h.disabled hdis c key)

theorem DropsNoChained.kept
    (hok : s.DropsNoChained lruLimit op) (hch : s.chained c key = some ch)
    (hlisted : (c, key) ∈ s.chainedOf name) :
    name ∉ s.evicted (toU64 lruLimit) op := by
  intro hdropped
  have hgone := hok name hdropped (c, key) hlisted
  rw [hch] at hgone
  cases hgone

section

variable (h : s.Coherent) (hwf : s.Wf (toU64 lruLimit))
include h hwf

theorem Coherent.get {mask : CacheFlags} (hok : s.DropsNoChained lruLimit (.get name mask))
    (hstep : s.step lruLimit (.get name mask) = some s') : s'.Coherent := by
  obtain ⟨t, hget, -, hmap, henabled, hchained⟩ := get_eq hwf name mask
  rw [step, hget] at hstep
  cases hstep
  refine h.shrink henabled fun c key ch hch => ?_
  rw [hchained] at hch
  refine ⟨hch, fun n hlisted => ?_⟩
  rw [chainedOf_eq_content, hmap n, if_neg (hok.kept hch hlisted), ← chainedOf_eq_content]
  exact hlisted

/-- An entry that is put throws away what was derived from the old one. -/
theorem Coherent.put {info : ObjectCacheInfo} (hok : s.DropsNoChained lruLimit (.put name info))
    (hstep : s.step lruLimit (.put name info) = some s') : s'.Coherent := by
  by_cases hen : s.enabled = true
  · obtain ⟨t, hput, -, hmap, henabled, hchained⟩ := put_eq hwf hen name info
    rw [step, hput] at hstep
    cases hstep
    refine h.shrink (henabled.trans hen.symm) fun c key ch hch => ?_
    rw [hchained] at hch
    obtain ⟨hnot, hold⟩ := chained_of_invalidateChained hch
    refine ⟨hold, fun n hlisted => ?_⟩
    have hother : n ≠ name := fun heq => hnot (heq ▸ hlisted)
    rw [chainedOf_eq_content, hmap n, if_neg hother, if_neg (hok.kept hold hlisted),
      ← chainedOf_eq_content]
    exact hlisted
  · have hsame : s.step lruLimit (.put name info) = some s := by simp [step, ObjectCache.put, hen]
    obtain rfl := some.inj (hsame.symm.trans hstep)
    exact h

theorem Coherent.remove (hstep : s.step lruLimit (.remove name) = some s') : s'.Coherent := by
  by_cases hen : s.enabled = true
  · obtain ⟨t, hremove, -, hmap, henabled, hchained⟩ := remove_eq hwf hen name
    rw [step, hremove] at hstep
    cases hstep
    refine h.shrink (henabled.trans hen.symm) fun c key ch hch => ?_
    rw [hchained] at hch
    obtain ⟨hnot, hold⟩ := chained_of_invalidateChained hch
    refine ⟨hold, fun n hlisted => ?_⟩
    have hother : n ≠ name := fun heq => hnot (heq ▸ hlisted)
    rw [chainedOf, hmap n, if_neg hother]
    exact hlisted
  · have hsame : s.step lruLimit (.remove name) = some s := by
      simp [step, ObjectCache.remove, hen]
    obtain rfl := some.inj (hsame.symm.trans hstep)
    exact h

end

theorem coherent_invalidateAll (s : ObjectCache) : s.invalidateAll.Coherent := by
  refine ⟨?_, fun _ _ _ => rfl⟩
  intro c key ch hch
  cases hch

theorem Coherent.setEnabled (h : s.Coherent) (status : Bool) : (s.setEnabled status).Coherent := by
  cases status with
  | true => exact ⟨h.listed, fun hdis => nomatch hdis⟩
  | false => exact coherent_invalidateAll _

theorem Coherent.chainCacheEntry (h : s.Coherent) (infos : List (Bytes × UInt64))
    (c : ChainedCache) (key record : Bytes) :
    (s.chainCacheEntry infos c key record).2.Coherent := by
  rw [ObjectCache.chainCacheEntry]
  split
  · exact h
  split
  · rename_i hen hvalid
    refine ⟨?_, fun hdis => absurd hdis (by simpa using hen)⟩
    intro c' key' ch hch n hn
    rw [mem_chainedOf]
    by_cases hsame : c' = c ∧ key' = key
    · -- the new record: its sources have just been checked to have entries
      obtain ⟨rfl, rfl⟩ := hsame
      change Function.update s.chained c' _ c' key' = some ch at hch
      rw [update_self, update_self] at hch
      cases hch
      obtain ⟨info, hinfo, rfl⟩ := List.mem_map.mp hn
      have hlive := List.all_eq_true.mp hvalid info hinfo
      obtain ⟨entry, hentry⟩ := exists_of_stillValid hlive
      refine ⟨_, map_eq_some_iff.mpr ⟨entry, hentry, rfl⟩, ?_⟩
      apply mem_append_right
      exact List.mem_map.mpr ⟨info, mem_filter.mpr ⟨hinfo, by simp⟩, rfl⟩
    · have hold : s.chained c' key' = some ch := by
        change Function.update s.chained c _ c' key' = some ch at hch
        by_cases hc : c' = c
        · subst hc
          rw [update_self, update_of_ne (fun hkey => hsame ⟨rfl, hkey⟩)] at hch
          exact hch
        · rw [update_of_ne hc] at hch
          exact hch
      obtain ⟨entry, hentry, hlisted⟩ := mem_chainedOf.mp (h.listed c' key' ch hold n hn)
      refine ⟨_, map_eq_some_iff.mpr ⟨entry, hentry, rfl⟩, ?_⟩
      exact mem_append_left _ hlisted
  · exact h

/-- Step lemma, for operations that drop no source of a chained value. -/
theorem Coherent.step (h : s.Coherent)
    (hwf : s.Wf (toU64 lruLimit)) (hok : s.DropsNoChained lruLimit op)
    (hstep : s.step lruLimit op = some s') : s'.Coherent := by
  cases op with
  | get name mask => exact h.get hwf hok hstep
  | put name info => exact h.put hwf hok hstep
  | remove name => exact h.remove hwf hstep
  | setEnabled status =>
    cases hstep
    exact h.setEnabled status
  | invalidateAll =>
    cases hstep
    exact coherent_invalidateAll s
  | chain infos c key record =>
    cases hstep
    exact h.chainCacheEntry infos c key record

theorem coherent_init (lruLimit : Int) : (ObjectCache.init lruLimit).Coherent := by
  refine ⟨?_, fun _ _ _ => rfl⟩
  intro c key ch hch
  cases hch

theorem coherent_of_run {ops : List CacheOp}
    (hrun : Transition.Steps (ObjectCache.step lruLimit) (DropsNoChained lruLimit)
      (ObjectCache.init lruLimit) ops s) : s.Wf (toU64 lruLimit) ∧ s.Coherent := by
  refine hrun.invariant (I := fun s => s.Wf (toU64 lruLimit) ∧ s.Coherent) ?_
    ⟨wf_init lruLimit, coherent_init lruLimit⟩
  rintro s s' op ⟨hwf, hcoh⟩ hok hstep
  obtain ⟨t, ht, hwf'⟩ := hwf.step op
  obtain rfl := some.inj (ht.symm.trans hstep)
  exact ⟨hwf', hcoh.step hwf hok hstep⟩

/-- A change of a source throws away what was derived from it. -/
theorem Coherent.invalidated (h : s.Coherent)
    (hwf : s.Wf (toU64 lruLimit))
    (hch : s.chained c key = some ch) (hname : name ∈ ch.sources)
    (hop : op = .remove name ∨ ∃ info, op = .put name info) (hstep : s.step lruLimit op = some s') :
    s'.find c key = none := by
  have hen : s.enabled = true := by
    by_contra hdis
    have hnone := h.disabled (by simpa using hdis) c key
    rw [hch] at hnone
    cases hnone
  have hgone : (s.invalidateChained (s.chainedOf name)).chained c key = none := by
    rw [chained_invalidateChained, if_pos (h.listed c key ch hch name hname)]
  rcases hop with rfl | ⟨info, rfl⟩
  · obtain ⟨t, hremove, -, -, -, hchained⟩ := remove_eq hwf hen name
    obtain rfl := some.inj (hremove.symm.trans hstep)
    rw [find, hchained, hgone]
    rfl
  · obtain ⟨t, hput, -, -, -, hchained⟩ := put_eq hwf hen name info
    obtain rfl := some.inj (hput.symm.trans hstep)
    rw [find, hchained, hgone]
    rfl

/-- In a run in which no operation drops an entry that lists a chained record, every answer of a
chained cache is listed by the entries of all objects it was derived from, and the next put or
removal of one ends it. -/
theorem chained_of_run {lruLimit : Int} {ops : List CacheOp} {s : ObjectCache}
    (hrun : Transition.Steps (ObjectCache.step lruLimit) (DropsNoChained lruLimit)
      (ObjectCache.init lruLimit) ops s)
    {c : ChainedCache} {key : Bytes} {ch : ChainedRecord} (hch : s.chained c key = some ch)
    {name : Bytes} (hname : name ∈ ch.sources) :
    (∃ entry, s.cacheMap name = some entry ∧ (c, key) ∈ entry.chainedEntries) ∧
      ∀ op, op = .remove name ∨ (∃ info, op = .put name info) →
        ∀ s', s.step lruLimit op = some s' → s'.find c key = none := by
  obtain ⟨hwf, hcoh⟩ := coherent_of_run hrun
  refine ⟨mem_chainedOf.mp (hcoh.listed c key ch hch name hname), ?_⟩
  intro op hop s' hstep
  exact hcoh.invalidated hwf hch hname hop hstep

/-- A bucket record derived from two objects, in a cache that has room for both. -/
theorem chained_of_two_sources : ∃ s, Transition.Steps (ObjectCache.step 2) (DropsNoChained 2)
    (ObjectCache.init 2)
        [.setEnabled true, .put (ascii "a") {}, .put (ascii "b") {},
          .chain [(ascii "a", 1), (ascii "b", 1)] .binfo (ascii "k") (ascii "r")] s ∧
      s.find .binfo (ascii "k") = some (ascii "r") ∧
      ∀ s', s.step 2 (.remove (ascii "b")) = some s' → s'.find .binfo (ascii "k") = none := by
  obtain ⟨s, hs⟩ := isSome_iff_exists.mp (show (List.foldlM (fun s i =>
      if DropsNoChained 2 s i then ObjectCache.step 2 s i else none) (ObjectCache.init 2)
    [.setEnabled true, .put (ascii "a") {}, .put (ascii "b") {},
      .chain [(ascii "a", 1), (ascii "b", 1)] .binfo (ascii "k") (ascii "r")]).isSome by decide)
  have hch : s.chained .binfo (ascii "k") = some ⟨ascii "r", [ascii "a", ascii "b"]⟩ := by
    have hmap := congrArg (Option.map (·.chained .binfo (ascii "k"))) hs
    exact (some.inj hmap).symm.trans (by decide)
  have hrun := Transition.Steps.of_foldlM hs
  have hafter := chained_of_run hrun hch (mem_cons_of_mem _ mem_cons_self)
  refine ⟨s, hrun, ?_, hafter.2 _ (.inl rfl)⟩
  rw [find, hch]
  rfl

/-- With room for one name, two later puts drop the source of a record; the record stays, and stays
when the source is put again. -/
theorem chained_outlives_source :
    (([.setEnabled true, .put (ascii "a") {},
      .chain [(ascii "a", 1)] .binfo (ascii "k") (ascii "r"),
        .put (ascii "b") {}, .put (ascii "c") {}] : List CacheOp).foldlM
      (ObjectCache.step 1) (ObjectCache.init 1)).map (fun s =>
        ((s.cacheMap (ascii "a")).isSome, s.find .binfo (ascii "k"),
          (s.step 1 (.put (ascii "a") {})).map (·.find .binfo (ascii "k")))) =
    some (false, some (ascii "r"), some (some (ascii "r"))) := by
  decide

end RadosGateway.ObjectCache
