import RadosGateway.Proof.CacheStructure

/-!
# Generations of cache entries

An entry counts how often it was put, and a record is chained to the count that was read. A name
that is dropped and put again starts anew, so that an old count can be right again. As long as a
name is only put while it is there, its count only grows. -/

namespace RadosGateway.ObjectCache

open Text Option

def captured (lruLimit : Int) (s : ObjectCache) : CacheOp → Option (Bytes × UInt64)
  | .get name mask =>
    ((s.get (toU64 lruLimit) name mask).bind Prod.fst).map fun r => (name, r.2)
  | .put name info =>
    if s.enabled && 0 ≤ info.status then
      ((s.put (toU64 lruLimit) name info).bind (·.cacheMap name)).map fun entry => (name, entry.gen)
    else none
  | _ => none

def Touches (name : Bytes) : CacheOp → Prop
  | .put name' _ => name' = name
  | .remove name' => name' = name
  | _ => False

def Continues (name : Bytes) (s : ObjectCache) : CacheOp → Prop
  | .put name' _ => name' = name → ∃ entry, s.cacheMap name = some entry ∧
  entry.gen.toNat + 1 < 2 ^ 64
  | _ => True

variable {op : CacheOp} {ops : List CacheOp}

structure Sound (lruLimit : Int) (s : ObjectCache) : Prop where
  wf : s.Wf (toU64 lruLimit)
  empty : s.enabled = false → ∀ name, s.cacheMap name = none

section Step

variable {lruLimit : Int} {s s' : ObjectCache} {name : Bytes} {entry' : ObjectCacheEntry}

theorem gen_of_content (hentry : s'.cacheMap name = some entry')
    (hsame : (s'.cacheMap name).map content = (s.cacheMap name).map content) :
    ∃ entry, s.cacheMap name = some entry ∧ entry'.gen = entry.gen := by
  rw [hentry] at hsame
  obtain ⟨entry, hold, heq⟩ := map_eq_some_iff.mp hsame.symm
  exact ⟨entry, hold, (congrArg (·.2.1) heq).symm⟩

theorem not_content_none (hentry : s'.cacheMap name = some entry')
    (hnone : (s'.cacheMap name).map content = none) : False := by
  rw [hentry] at hnone
  cases hnone

theorem cacheMap_chainCacheEntry (s : ObjectCache) (infos : List (Bytes × UInt64))
    (c : ChainedCache)
    (key record : Bytes) (name : Bytes) :
    (((s.chainCacheEntry infos c key record).2).cacheMap name).map (·.gen) =
      (s.cacheMap name).map (·.gen) := by
  unfold chainCacheEntry
  split_ifs
  · rfl
  · rw [map_map]
    rfl
  · rfl

/-- An entry either is untouched and keeps its generation, or was just put. -/
theorem entry_of_step (hs : s.Sound lruLimit) (hstep : s.step lruLimit op = some s')
    (hentry : s'.cacheMap name = some entry') :
    (¬ Touches name op ∧ ∃ entry, s.cacheMap name = some entry ∧ entry'.gen = entry.gen) ∨
      s.enabled = true ∧ ∃ info, op = .put name info ∧
      entry'.gen = ((s.cacheMap name).getD {}).gen + 1 := by
  cases op with
  | get name' mask =>
    obtain ⟨t, hget, -, hmap, -⟩ := get_eq hs.wf name' mask
    rw [step, hget] at hstep
    cases hstep
    have hhere := hmap name
    split_ifs at hhere
    · exact (not_content_none hentry hhere).elim
    · exact .inl ⟨id, gen_of_content hentry hhere⟩
  | put name' info =>
    by_cases hen : s.enabled = true
    · obtain ⟨t, hput, -, hmap, -⟩ := put_eq hs.wf hen name' info
      obtain rfl := some.inj (hput.symm.trans hstep)
      have hhere := hmap name
      split_ifs at hhere with hname
      · subst hname
        rw [hentry, map_some, some.injEq] at hhere
        exact .inr ⟨hen, info, rfl, congrArg (·.2.1) hhere⟩
      · exact (not_content_none hentry hhere).elim
      · exact .inl ⟨fun heq => hname heq.symm, gen_of_content hentry hhere⟩
    · have hsame : s.step lruLimit (.put name' info) = some s := by simp [step, put, hen]
      obtain rfl := some.inj (hsame.symm.trans hstep)
      rw [hs.empty (by simpa using hen)] at hentry
      cases hentry
  | remove name' =>
    by_cases hen : s.enabled = true
    · obtain ⟨t, hremove, -, hmap, -⟩ := remove_eq hs.wf hen name'
      obtain rfl := some.inj (hremove.symm.trans hstep)
      have hhere := hmap name
      split_ifs at hhere with hname
      · rw [hhere] at hentry
        cases hentry
      · rw [hhere] at hentry
        exact .inl ⟨fun heq => hname heq.symm, entry', hentry, rfl⟩
    · have hsame : s.step lruLimit (.remove name') = some s := by simp [step, remove, hen]
      obtain rfl := some.inj (hsame.symm.trans hstep)
      rw [hs.empty (by simpa using hen)] at hentry
      cases hentry
  | setEnabled status =>
    cases hstep
    cases status with
    | true => exact .inl ⟨id, entry', hentry, rfl⟩
    | false => cases hentry
  | invalidateAll =>
    cases hstep
    cases hentry
  | chain infos c key record =>
    cases hstep
    have hgen := cacheMap_chainCacheEntry s infos c key record name
    rw [hentry] at hgen
    obtain ⟨entry, hold, heq⟩ := map_eq_some_iff.mp hgen.symm
    exact .inl ⟨id, entry, hold, heq.symm⟩

/-- The cache is disabled together with all of its contents. -/
theorem enabled_of_step (hs : s.Sound lruLimit) (hstep : s.step lruLimit op = some s')
    (hdis : s'.enabled = false) : s.enabled = false ∨ ∀ name, s'.cacheMap name = none := by
  cases op with
  | get name mask =>
    obtain ⟨t, hget, -, -, henabled, -⟩ := get_eq hs.wf name mask
    rw [step, hget] at hstep
    cases hstep
    exact .inl (henabled ▸ hdis)
  | put name info =>
    by_contra hnot
    have hen : s.enabled = true := by simpa using (not_or.mp hnot).1
    obtain ⟨t, hput, -, -, henabled, -⟩ := put_eq hs.wf hen name info
    obtain rfl := some.inj (hput.symm.trans hstep)
    rw [henabled] at hdis
    cases hdis
  | remove name =>
    by_contra hnot
    have hen : s.enabled = true := by simpa using (not_or.mp hnot).1
    obtain ⟨t, hremove, -, -, henabled, -⟩ := remove_eq hs.wf hen name
    obtain rfl := some.inj (hremove.symm.trans hstep)
    rw [henabled] at hdis
    cases hdis
  | setEnabled status =>
    cases hstep
    cases status with
    | true => cases hdis
    | false => exact .inr fun _ => rfl
  | invalidateAll =>
    cases hstep
    exact .inr fun _ => rfl
  | chain infos c key record =>
    cases hstep
    refine .inl ?_
    unfold chainCacheEntry at hdis
    split_ifs at hdis <;> exact hdis

/-- Step lemma. -/
theorem Sound.step (hs : s.Sound lruLimit) (hstep : s.step lruLimit op = some s') :
    s'.Sound lruLimit := by
  obtain ⟨t, ht, hwf⟩ := hs.wf.step op
  obtain rfl := some.inj (ht.symm.trans hstep)
  refine ⟨hwf, fun hdis name => ?_⟩
  rcases enabled_of_step hs hstep hdis with hbefore | hnone
  · cases hentry : t.cacheMap name with
    | none => rfl
    | some entry' =>
      rcases entry_of_step hs hstep hentry with ⟨-, entry, hold, -⟩ | ⟨hen, -⟩
      · rw [hs.empty hbefore] at hold
        cases hold
      · rw [hbefore] at hen
        cases hen
  · exact hnone name

end Step

def PutAtLeast (name : Bytes) (n : Nat) (s : ObjectCache) : Prop :=
  ∀ entry, s.cacheMap name = some entry → n ≤ entry.gen.toNat

section Runs

variable {lruLimit : Int} {s s' : ObjectCache} {name : Bytes} {n : Nat}

/-- The generation counts every put that touches the name. -/
theorem PutAtLeast.step (h : PutAtLeast name n s) (hs : s.Sound lruLimit)
    (hok : s.Continues name op) (hstep : s.step lruLimit op = some s') :
    PutAtLeast name n s' ∧ (Touches name op → PutAtLeast name (n + 1) s') := by
  have hmore : ∀ entry', s'.cacheMap name = some entry' →
      (¬ Touches name op ∧ n ≤ entry'.gen.toNat) ∨ n + 1 ≤ entry'.gen.toNat := by
    intro entry' hentry
    rcases entry_of_step hs hstep hentry with ⟨hnot, entry, hold, hgen⟩ | ⟨-, info, rfl, hgen⟩
    · exact .inl ⟨hnot, hgen ▸ h entry hold⟩
    · obtain ⟨entry, hold, hroom⟩ := hok rfl
      have hn := h entry hold
      rw [hold, getD_some] at hgen
      have hadd : (entry.gen + 1).toNat = (entry.gen.toNat + 1) % 2 ^ 64 :=
        UInt64.toNat_add entry.gen 1
      rw [hgen, hadd]
      omega
  constructor
  · intro entry' hentry
    rcases hmore entry' hentry with ⟨-, hle⟩ | hle <;> omega
  · intro htouch entry' hentry
    rcases hmore entry' hentry with ⟨hnot, -⟩ | hle
    · exact absurd htouch hnot
    · exact hle

/-- Run lemma: the generation counts the puts as long as the entry stays. -/
theorem PutAtLeast.run
    (hrun : Transition.Steps (ObjectCache.step lruLimit) (Continues name) s ops s')
    (h : PutAtLeast name n s)
    (hs : s.Sound lruLimit) :
    PutAtLeast name n s' ∧ ((∃ op ∈ ops, Touches name op) → PutAtLeast name (n + 1) s') := by
  induction hrun generalizing n with
  | nil s => exact ⟨h, fun ⟨op, hop, _⟩ => by cases hop⟩
  | @cons s s₁ s₂ op ops hok hstep hrest ih =>
    obtain ⟨hkept, hended⟩ := h.step hs hok hstep
    obtain ⟨hlast, htouched⟩ := ih hkept (hs.step hstep)
    refine ⟨hlast, ?_⟩
    rintro ⟨op', hop', htouch⟩
    rcases List.mem_cons.mp hop' with rfl | hop'
    · exact (ih (hended htouch) (hs.step hstep)).1
    · exact htouched ⟨op', hop', htouch⟩

theorem sound_after_run
    (hrun : ops.foldlM (ObjectCache.step lruLimit) (ObjectCache.init lruLimit) = some s) :
    s.Sound lruLimit := by
  have hall : ∀ (s₀ : ObjectCache), s₀.Sound lruLimit →
      ops.foldlM (ObjectCache.step lruLimit) s₀ = some s → s.Sound lruLimit := by
    clear hrun
    induction ops with
    | nil =>
      intro s₀ hs₀ hrun
      cases hrun
      exact hs₀
    | cons op ops ih =>
      intro s₀ hs₀ hrun
      obtain ⟨s₁, hstep, hrest⟩ := bind_eq_some_iff.mp hrun
      exact ih s₁ (hs₀.step hstep) hrest
  exact hall _ ⟨wf_init lruLimit, fun _ _ => rfl⟩ hrun

theorem putAtLeast_of_captured (hs : s.Sound lruLimit) {gen : UInt64}
    (hcaptured : s.captured lruLimit op = some (name, gen)) (hstep : s.step lruLimit op = some s') :
    PutAtLeast name gen.toNat s' := by
  intro entry' hentry
  cases op with
  | get name' mask =>
    obtain ⟨t, hget, -⟩ := get_eq hs.wf name' mask
    rw [captured, hget, bind_some] at hcaptured
    obtain ⟨⟨info, gen'⟩, hfound, heq⟩ := map_eq_some_iff.mp hcaptured
    cases heq
    rcases entry_of_step hs hstep hentry with ⟨-, entry, hold, hgen⟩ | ⟨-, info', hop, -⟩
    · have hsame : gen' = entry.gen := by
        simp only [lookup, hold, map_some, bind_some, content] at hfound
        split_ifs at hfound
        exact (congrArg Prod.snd (some.inj hfound)).symm
      rw [hgen, hsame]
    · cases hop
  | put name' info =>
    have hput : s.put (toU64 lruLimit) name' info = some s' := hstep
    rw [captured, hput] at hcaptured
    split_ifs at hcaptured
    obtain ⟨entry, hnew, heq⟩ := map_eq_some_iff.mp hcaptured
    cases heq
    obtain rfl := some.inj (hentry.symm.trans hnew)
    exact le_rfl
  | remove _ => cases hcaptured
  | setEnabled _ => cases hcaptured
  | invalidateAll => cases hcaptured
  | chain _ _ _ _ => cases hcaptured

/-- In a run in which the name is put only while it is there, a record that is chained with a
captured count was derived from what is still cached: the name was neither put nor removed since. -/
theorem untouched_of_chained {ops₁ ops₂ : List CacheOp} {s₀ s₁ s₂ : ObjectCache} {op : CacheOp}
    {gen : UInt64} (hrun₁ : ops₁.foldlM (ObjectCache.step lruLimit) (ObjectCache.init lruLimit) =
      some s₀)
    (hcaptured : s₀.captured lruLimit op = some (name, gen)) (hstep : s₀.step lruLimit op = some s₁)
    (hrun₂ : Transition.Steps (ObjectCache.step lruLimit) (Continues name) s₁ ops₂ s₂)
    {infos : List (Bytes × UInt64)} (hinfo : (name, gen) ∈ infos) {c : ChainedCache}
    {key record : Bytes} (hchain : (s₂.chainCacheEntry infos c key record).1 = true) :
    ∀ op ∈ ops₂, ¬ Touches name op := by
  intro op' hop' htouch
  have hs₀ := sound_after_run hrun₁
  have hcount := (putAtLeast_of_captured hs₀ hcaptured hstep).run hrun₂ (hs₀.step hstep)
  have hmore := hcount.2 ⟨op', hop', htouch⟩
  have hvalid : s₂.stillValid (name, gen) = true := by
    unfold chainCacheEntry at hchain
    split_ifs at hchain with hdis hall
    exact List.all_eq_true.mp hall _ hinfo
  unfold stillValid at hvalid
  cases hentry : s₂.cacheMap name with
  | none => simp [hentry] at hvalid
  | some entry =>
    have hle := hmore entry hentry
    have hgen : entry.gen = gen := by simpa [hentry] using hvalid
    rw [hgen] at hle
    omega

end Runs

/-- A put captures the count one; another name is put, and the count is still right. -/
theorem untouched_by_other_put :
    ∃ s₁ s₂, ((ObjectCache.init 2).setEnabled true).step 2 (.put (ascii "a") {}) = some s₁ ∧
      s₁.step 2 (.put (ascii "b") {}) = some s₂ ∧
      (s₂.chainCacheEntry [(ascii "a", 1)] .binfo (ascii "k") (ascii "r")).1 = true ∧
      ∀ op ∈ [CacheOp.put (ascii "b") {}], ¬ Touches (ascii "a") op := by
  obtain ⟨s₁, h₁⟩ := isSome_iff_exists.mp
    (show (((ObjectCache.init 2).setEnabled true).step 2 (.put (ascii "a") {})).isSome by decide)
  have hrun : (((ObjectCache.init 2).setEnabled true).step 2 (.put (ascii "a") {})).bind (fun s₁ =>
      (s₁.step 2 (.put (ascii "b") {})).map fun s₂ =>
        (s₂.chainCacheEntry [(ascii "a", 1)] .binfo (ascii "k") (ascii "r")).1) = some true := by
    decide
  rw [h₁, bind_some] at hrun
  obtain ⟨s₂, h₂, hchain⟩ := map_eq_some_iff.mp hrun
  refine ⟨s₁, s₂, h₁, h₂, hchain, ?_⟩
  have hother : Continues (ascii "a") s₁ (.put (ascii "b") {}) := fun heq => absurd heq (by decide)
  have hrun₁ : [CacheOp.setEnabled true].foldlM (ObjectCache.step 2) (ObjectCache.init 2) =
      some ((ObjectCache.init 2).setEnabled true) := rfl
  have hcaptured : ((ObjectCache.init 2).setEnabled true).captured 2 (.put (ascii "a") {}) =
      some (ascii "a", 1) := by
    decide
  exact untouched_of_chained hrun₁ hcaptured h₁ (.single hother h₂) (List.mem_singleton.mpr rfl)
    hchain

/-- A name is put, captured, removed and put again: the old count is right again. -/
theorem old_count_chained :
    (([.setEnabled true] : List CacheOp).foldlM (ObjectCache.step 2) (ObjectCache.init 2)).bind
      (fun s₀ =>
      (([.put (ascii "a") {}, .remove (ascii "a"), .put (ascii "a") {}] : List CacheOp).foldlM
        (ObjectCache.step 2) s₀).map fun s₂ =>
          (s₀.captured 2 (.put (ascii "a") {}),
            (s₂.chainCacheEntry [(ascii "a", 1)] .binfo (ascii "k") (ascii "r")).1)) =
      some (some (ascii "a", 1), true) := by
  decide

end RadosGateway.ObjectCache
