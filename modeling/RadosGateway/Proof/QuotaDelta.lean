import RadosGateway.QuotaCache
import RadosGateway.Proof.LruMap

/-!
# Adjusting cached statistics

An adjustment adds a difference of byte counts to unsigned numbers. The rounded one is always right,
because it wraps around twice; the other is divided in between, and is wrong whenever more bytes are
removed than added.
-/

namespace RadosGateway.QuotaCache

open Text List Option

def blockKb (n : Nat) : Nat := (n + 4095) / 4096 * 4

theorem toNat_roundedObjsizeKb_eq (b : UInt64) :
    (roundedObjsizeKb b).toNat = (b.toNat + 4095) % 2 ^ 64 / 4096 * 4 := by
  have hmask : (~~~4095 : UInt64).toNat = 2 ^ 64 - 2 ^ 12 := by decide
  have hkb : (1024 : UInt64).toNat = 1024 := by decide
  have hadd : (b + 4095).toNat = (b.toNat + 4095) % 2 ^ 64 := UInt64.toNat_add b 4095
  rw [roundedObjsizeKb, UInt64.toNat_div, UInt64.toNat_and, hmask,
    and_two_pow_sub_two_pow (by omega) (UInt64.toNat_lt _), hadd, hkb]
  omega

def TooLarge (b : UInt64) : Prop := 2 ^ 64 - 4096 < b.toNat

instance (b : UInt64) : Decidable (TooLarge b) := inferInstanceAs (Decidable (_ < _))

theorem toNat_roundedObjsizeKb_of_le {b : UInt64} (h : ¬ TooLarge b) :
    (roundedObjsizeKb b).toNat = blockKb b.toNat := by
  rw [TooLarge] at h
  rw [toNat_roundedObjsizeKb_eq, blockKb, Nat.mod_eq_of_lt (by omega)]

theorem toNat_roundedObjsizeKb_of_tooLarge {b : UInt64} (h : TooLarge b) :
    (roundedObjsizeKb b).toNat = 0 ∧ blockKb b.toNat = 2 ^ 54 := by
  have hlt := b.toNat_lt
  rw [TooLarge] at h
  rw [toNat_roundedObjsizeKb_eq, blockKb]
  omega

namespace StatsUpdate

variable (u : StatsUpdate) (s : StorageStats)

def kb : Int := ((u.addedBytes.toNat : Int) - u.removedBytes.toNat).tdiv 1024

def kbRounded : Int := (blockKb u.addedBytes.toNat : Int) - blockKb u.removedBytes.toNat

def Exact : Prop :=
  ((u.apply s).numKb.toNat : Int) = s.numKb.toNat + u.kb ∧
    ((u.apply s).numKbRounded.toNat : Int) = s.numKbRounded.toNat + u.kbRounded

def Fits : Prop :=
  u.removedBytes.toNat ≤ u.addedBytes.toNat ∧ (TooLarge u.addedBytes → TooLarge u.removedBytes) ∧
    s.numKb.toNat + u.kb < 2 ^ 64 ∧ s.numKbRounded.toNat + u.kbRounded < 2 ^ 64

instance : Decidable (u.Fits s) := inferInstanceAs (Decidable (_ ∧ (_ → _) ∧ _ ∧ _))

theorem toNat_numKb_apply : (u.apply s).numKb.toNat =
      (s.numKb.toNat + (2 ^ 64 - u.removedBytes.toNat + u.addedBytes.toNat) % 2 ^ 64 / 1024) % 2 ^
        64 := by
  have hkb : (1024 : UInt64).toNat = 1024 := by decide
  simp only [apply, UInt64.toNat_add, UInt64.toNat_div, UInt64.toNat_sub, hkb]

theorem toNat_numKbRounded_apply : (u.apply s).numKbRounded.toNat =
      (s.numKbRounded.toNat + (2 ^ 64 - (roundedObjsizeKb u.removedBytes).toNat +
        (roundedObjsizeKb u.addedBytes).toNat) % 2 ^ 64) % 2 ^ 64 := by
  simp only [apply, UInt64.toNat_add, UInt64.toNat_sub]

variable {u s}

theorem kb_of_le (h : u.removedBytes.toNat ≤ u.addedBytes.toNat) :
    u.kb = ((u.addedBytes.toNat - u.removedBytes.toNat) / 1024 : Nat) := by
  rw [kb, ← Nat.cast_sub h]
  rfl

theorem kb_of_lt (h : u.addedBytes.toNat < u.removedBytes.toNat) :
    u.kb = -((u.removedBytes.toNat - u.addedBytes.toNat) / 1024 : Nat) := by
  rw [kb, ← neg_sub, Int.neg_tdiv, ← Nat.cast_sub h.le]
  rfl

theorem numKb_exact_iff (hkb : 0 ≤ s.numKb.toNat + u.kb) :
    ((u.apply s).numKb.toNat : Int) = s.numKb.toNat + u.kb ↔
      u.removedBytes.toNat ≤ u.addedBytes.toNat ∧ s.numKb.toNat + u.kb < 2 ^ 64 := by
  have hadded := u.addedBytes.toNat_lt
  have hremoved := u.removedBytes.toNat_lt
  rw [toNat_numKb_apply]
  rcases Nat.lt_or_ge u.addedBytes.toNat u.removedBytes.toNat with hlt | hge
  · refine iff_of_false (fun h => ?_) (fun h => by omega)
    rw [kb_of_lt hlt] at h
    omega
  · rw [kb_of_le hge] at hkb ⊢
    omega

/-- One update is exact unless just one of its sizes is too large to be rounded, or the sum wraps.
-/
theorem numKbRounded_exact_iff (hrounded : 0 ≤ s.numKbRounded.toNat + u.kbRounded) :
    ((u.apply s).numKbRounded.toNat : Int) = s.numKbRounded.toNat + u.kbRounded ↔
      (TooLarge u.addedBytes ↔ TooLarge u.removedBytes) ∧
      s.numKbRounded.toNat + u.kbRounded < 2 ^ 64 := by
  have hremoved := u.removedBytes.toNat_lt
  rw [toNat_numKbRounded_apply]
  unfold kbRounded at hrounded ⊢
  by_cases hA : TooLarge u.addedBytes
  · by_cases hR : TooLarge u.removedBytes
    · obtain ⟨hA0, hA1⟩ := toNat_roundedObjsizeKb_of_tooLarge hA
      obtain ⟨hR0, hR1⟩ := toNat_roundedObjsizeKb_of_tooLarge hR
      rw [hA0, hR0, hA1, hR1, iff_true_right hR]
      simp only [hA, true_and]
      omega
    · obtain ⟨hA0, hA1⟩ := toNat_roundedObjsizeKb_of_tooLarge hA
      refine iff_of_false (fun h => ?_) fun h => hR (h.1.mp hA)
      rw [hA0, hA1, toNat_roundedObjsizeKb_of_le hR, blockKb] at h
      omega
  · by_cases hR : TooLarge u.removedBytes
    · obtain ⟨hR0, hR1⟩ := toNat_roundedObjsizeKb_of_tooLarge hR
      refine iff_of_false (fun h => ?_) fun h => hA (h.1.mpr hR)
      rw [hR0, hR1, toNat_roundedObjsizeKb_of_le hA, blockKb] at h
      omega
    · rw [toNat_roundedObjsizeKb_of_le hA, toNat_roundedObjsizeKb_of_le hR]
      simp only [hA, hR, iff_self, true_and]
      unfold blockKb at hrounded ⊢
      omega

theorem exact_iff (hkb : 0 ≤ s.numKb.toNat + u.kb)
    (hrounded : 0 ≤ s.numKbRounded.toNat + u.kbRounded) :
    u.Exact s ↔ u.Fits s := by
  rw [Exact, numKb_exact_iff hkb, numKbRounded_exact_iff hrounded, Fits]
  constructor
  · rintro ⟨⟨hle, hfit⟩, hlarge, hfit'⟩
    exact ⟨hle, hlarge.mp, hfit, hfit'⟩
  · rintro ⟨hle, hlarge, hfit, hfit'⟩
    exact ⟨⟨hle, hfit⟩, ⟨hlarge, fun h => lt_of_lt_of_le h hle⟩, hfit'⟩

end StatsUpdate

section Totals

variable (s : StorageStats) (us : List StatsUpdate)

def applyAll : StorageStats := us.foldl (fun s u => u.apply s) s

def totalKb : Int := s.numKb.toNat + (us.map StatsUpdate.kb).sum

def totalKbRounded : Int := s.numKbRounded.toNat + (us.map StatsUpdate.kbRounded).sum

def Tracked : Prop :=
  ((applyAll s us).numKb.toNat : Int) = totalKb s us ∧
    ((applyAll s us).numKbRounded.toNat : Int) = totalKbRounded s us

instance : Decidable (Tracked s us) := inferInstanceAs (Decidable (_ ∧ _))

variable {s us} {u : StatsUpdate}

@[simp]
theorem applyAll_concat : applyAll s (us ++ [u]) = u.apply (applyAll s us) := foldl_concat ..

@[simp]
theorem totalKb_concat : totalKb s (us ++ [u]) = totalKb s us + u.kb := by
  simp [totalKb, add_assoc]

@[simp]
theorem totalKbRounded_concat :
    totalKbRounded s (us ++ [u]) = totalKbRounded s us + u.kbRounded := by
  simp [totalKbRounded, add_assoc]

theorem Tracked.concat_iff (h : Tracked s us) (hkb : 0 ≤ totalKb s (us ++ [u]))
    (hrounded : 0 ≤ totalKbRounded s (us ++ [u])) : Tracked s (us ++ [u]) ↔
    u.Fits (applyAll s us) := by
  obtain ⟨hkbs, hroundeds⟩ := h
  rw [totalKb_concat, ← hkbs] at hkb
  rw [totalKbRounded_concat, ← hroundeds] at hrounded
  rw [← StatsUpdate.exact_iff hkb hrounded, Tracked, applyAll_concat, totalKb_concat,
    totalKbRounded_concat,
    ← hkbs, ← hroundeds]
  rfl

/-- Statistics follow the updates exactly if each of them fits where it comes. -/
theorem tracked_iff (hnonneg : ∀ us', us' <+: us → 0 ≤ totalKb s us' ∧ 0 ≤ totalKbRounded s us') :
    (∀ us', us' <+: us → Tracked s us') ↔ ∀ us' u, us' ++ [u] <+: us → u.Fits (applyAll s us') := by
  induction us using List.reverseRecOn with
  | nil =>
    refine iff_of_true (fun us' h => ?_) fun us' u h => ?_
    · rw [prefix_nil.mp h]
      exact ⟨by simp [applyAll, totalKb], by simp [applyAll, totalKbRounded]⟩
    · simp at h
  | append_singleton us v ih =>
    have ih := ih fun us' h => hnonneg us' (h.trans (prefix_append us [v]))
    obtain ⟨hkb, hrounded⟩ := hnonneg _ prefix_rfl
    constructor
    · intro h us' u hprefix
      have hbefore : ∀ us', us' <+: us → Tracked s us' := fun us' h' =>
        h us' (h'.trans (prefix_append us [v]))
      rcases prefix_concat_iff.mp hprefix with heq | hprefix
      · obtain ⟨rfl, hu⟩ := append_inj' heq rfl
        obtain rfl := singleton_inj.mp hu
        exact ((hbefore us' prefix_rfl).concat_iff hkb hrounded).mp (h _ prefix_rfl)
      · exact ih.mp hbefore us' u hprefix
    · intro h us' hprefix
      have hbefore := ih.mpr fun us' u h' => h us' u (h'.trans (prefix_append us [v]))
      rcases prefix_concat_iff.mp hprefix with rfl | hprefix
      · exact ((hbefore us prefix_rfl).concat_iff hkb hrounded).mpr (h us v prefix_rfl)
      · exact hbefore us' hprefix

end Totals

section Cache

variable {K : Type} [DecidableEq K]

def adjustAll (m : StatsMap K) (key : K) (us : List StatsUpdate) : Option (StatsMap K) :=
  us.foldlM (fun m u => adjustStats m key u) m

variable {m : StatsMap K} {key : K} {qs : QuotaCacheStats}

theorem adjustStats_cached {max : Nat} {r : Recency K QuotaCacheStats max}
    (h : LruMap.Represents m r)
    (hkey : (key, qs) ∈ r.list) (u : StatsUpdate) :
    ∃ m' r', adjustStats m key u = some m' ∧
    LruMap.Represents m' (r' : Recency K QuotaCacheStats max) ∧
      (key, { qs with stats := u.apply qs.stats }) ∈ r'.list := by
  obtain ⟨m', hfind, hrest⟩ := h.findEntry key (some u.update)
  refine ⟨m', _, by rw [adjustStats, LruMap.findAndUpdate, hfind]; rfl, hrest, ?_⟩
  rw [LruMap.recentFind, Recency.lookup_eq_some.mpr hkey]
  simp only [Recency.list_use_of_mem hkey]
  exact mem_cons_self

theorem adjustAll_cached {max : Nat} {r : Recency K QuotaCacheStats max} (h : LruMap.Represents m r)
    (hkey : (key, qs) ∈ r.list) (us : List StatsUpdate) :
    ∃ m' r', adjustAll m key us = some m' ∧
    LruMap.Represents m' (r' : Recency K QuotaCacheStats max) ∧
      (key, { qs with stats := applyAll qs.stats us }) ∈ r'.list := by
  induction us generalizing m r qs with
  | nil => exact ⟨m, r, rfl, h, hkey⟩
  | cons u us ih =>
    obtain ⟨m₁, r₁, hadjust, h₁, hkey₁⟩ := adjustStats_cached h hkey u
    obtain ⟨m₂, r₂, hall, h₂, hkey₂⟩ := ih h₁ hkey₁
    refine ⟨m₂, r₂, ?_, h₂, hkey₂⟩
    rw [adjustAll, foldlM_cons, hadjust]
    exact hall

def statsOf (m : StatsMap K) (key : K) : Option StorageStats :=
  (m.entries.lookup key).map (·.value.stats)

theorem statsOf_adjustAll {max : Int} {cs : List (LruMap.Call K QuotaCacheStats)}
    {outs : List (Option (LruMap.Found QuotaCacheStats))}
    (hrun : (LruMap.new max : StatsMap K).run cs = some (m, outs)) {s : StorageStats}
    (hs : statsOf m key = some s) (us : List StatsUpdate) :
    ∃ m', adjustAll m key us = some m' ∧ statsOf m' key = some (applyAll s us) := by
  obtain ⟨m₀, hrun₀, h⟩ := (LruMap.represents_new max).run cs
  obtain rfl : m₀ = m := congrArg Prod.fst (some.inj (hrun₀.symm.trans hrun))
  obtain ⟨e, he, rfl⟩ := map_eq_some_iff.mp hs
  obtain ⟨m', r', hall, h', hkey⟩ :=
    adjustAll_cached h ((h.1.entry key e.value).mpr ⟨e, he, rfl⟩) us
  obtain ⟨e', he', hvalue⟩ := (h'.1.entry key _).mp hkey
  exact ⟨m', hall, by rw [statsOf, he', map_some, hvalue]⟩

/-- For statistics cached for a key in a cache of any size and history, the numbers are the totals
behind every call of a sequence iff every call fits where it is made. -/
theorem cached_totals_iff {max : Int} {cs : List (LruMap.Call K QuotaCacheStats)}
    {outs : List (Option (LruMap.Found QuotaCacheStats))}
    (hrun : (LruMap.new max : StatsMap K).run cs = some (m, outs)) {s : StorageStats}
    (hs : statsOf m key = some s) (us : List StatsUpdate)
    (hnonneg : ∀ us', us' <+: us → 0 ≤ totalKb s us' ∧ 0 ≤ totalKbRounded s us') :
    (∀ us', us' <+: us → ∃ m' s', adjustAll m key us' = some m' ∧ statsOf m' key = some s' ∧
        (s'.numKb.toNat : Int) = totalKb s us' ∧
        (s'.numKbRounded.toNat : Int) = totalKbRounded s us') ↔
      ∀ us' u, us' ++ [u] <+: us → u.Fits (applyAll s us') := by
  rw [← tracked_iff hnonneg]
  refine forall₂_congr fun us' _ => ?_
  obtain ⟨m', hall, hs'⟩ := statsOf_adjustAll hrun hs us'
  constructor
  · rintro ⟨m'', s'', hall', hs'', htracked⟩
    obtain rfl := some.inj (hall.symm.trans hall')
    obtain rfl := some.inj (hs'.symm.trans hs'')
    exact htracked
  · exact fun htracked => ⟨m', _, hall, hs', htracked⟩

end Cache

/-- Statistics of one kilobyte in a cache with room for one entry; then an object of one block is
added. -/
theorem cached_totals_of_growth : ∃ (m : StatsMap Nat)
    (outs : List (Option (LruMap.Found QuotaCacheStats))),
      (LruMap.new 1).run [.add 0 ⟨⟨1, 4, 1⟩, ⟨0, 0⟩, ⟨0, 0⟩⟩] = some (m, outs) ∧
      ∀ us', us' <+: [⟨1, 4096, 0⟩] → ∃ m' s', adjustAll m 0 us' = some m' ∧
      statsOf m' 0 = some s' ∧
        (s'.numKb.toNat : Int) = totalKb ⟨1, 4, 1⟩ us' ∧
        (s'.numKbRounded.toNat : Int) = totalKbRounded ⟨1, 4, 1⟩ us' := by
  obtain ⟨m, hrun, h⟩ := (LruMap.represents_new (V := QuotaCacheStats) (K := Nat) 1).run
    [.add 0 ⟨⟨1, 4, 1⟩, ⟨0, 0⟩, ⟨0, 0⟩⟩]
  have hs : statsOf m 0 = some ⟨1, 4, 1⟩ := by
    obtain ⟨e, he, hvalue⟩ := (h.1.entry 0 ⟨⟨1, 4, 1⟩, ⟨0, 0⟩, ⟨0, 0⟩⟩).mp (by decide)
    rw [statsOf, he, map_some, hvalue]
  refine ⟨m, _, hrun, (cached_totals_iff hrun hs [⟨1, 4096, 0⟩] ?_).mpr ?_⟩
  · intro us' hprefix
    rcases prefix_cons_iff.mp hprefix with rfl | ⟨us', rfl, hnil⟩
    · decide
    · rw [prefix_nil.mp hnil]
      decide
  · intro us' u hprefix
    change us' ++ [u] <+: [] ++ [_] at hprefix
    rcases prefix_concat_iff.mp hprefix with heq | hnil
    · obtain ⟨rfl, hu⟩ := append_inj' heq rfl
      obtain rfl := singleton_inj.mp hu
      decide
    · simp at hnil

/-- One kilobyte is cached and one is removed: what is left is not nothing. -/
theorem removed_kilobyte_added :
    0 ≤ totalKb ⟨1, 4, 1⟩ [⟨-1, 0, 1024⟩] ∧ 0 ≤ totalKbRounded ⟨1, 4, 1⟩ [⟨-1, 0, 1024⟩] ∧
      ¬ Tracked ⟨1, 4, 1⟩ [⟨-1, 0, 1024⟩] := by
  decide

end RadosGateway.QuotaCache
