import RadosGateway.Proof.QuotaDelta

/-!
# What a quota check decides

The caches of the handler have room for nothing, so every check fetches the statistics. The numbers
are compared with the limits as words: a check that should fail passes when a sum wraps around, or
when the size is too large to be rounded up. -/

namespace RadosGateway

open Text QuotaCache Option

section NoRoom

variable {K : Type} [DecidableEq K] {m : StatsMap K}

def NoRoom (m : StatsMap K) : Prop := ∃ r : Recency K QuotaCacheStats 0, LruMap.Represents m r

theorem noRoom_new : NoRoom (LruMap.new 0 : StatsMap K) := ⟨.empty, LruMap.represents_new 0⟩

theorem NoRoom.lookup (h : NoRoom m) (key : K) : m.entries.lookup key = none := by
  obtain ⟨r, hrefines, -⟩ := h
  cases he : m.entries.lookup key with
  | none => rfl
  | some e =>
    have hmem : (key, e.value) ∈ r.list := (hrefines.entry key e.value).mpr ⟨e, he, rfl⟩
    rw [List.eq_nil_of_length_eq_zero (Nat.le_zero.mp r.length_le)] at hmem
    cases hmem

theorem NoRoom.findEntry (h : NoRoom m) (key : K)
    (ctx : Option (LruMap.UpdateContext QuotaCacheStats)) :
    m.findEntry key ctx = some (m, ⟨false, none⟩) := by
  rw [LruMap.findEntry, h.lookup]

theorem NoRoom.setStats (h : NoRoom m) (key : K) (stats : StorageStats) (stored : UTime) :
    ∃ m', QuotaCache.setStats m key stats stored = some m' ∧ NoRoom m' := by
  obtain ⟨r, hr⟩ := h
  obtain ⟨m', hadd, hm'⟩ := hr.add key ⟨stats, stored, stored⟩
  exact ⟨m', hadd, _, hm'⟩

def answered : Except Int StorageStats → Except Int StorageStats
  | .error ret => if ret < 0 ∧ ret ≠ -Errno.enoent.code then .error ret else .ok {}
  | .ok stats => .ok stats

theorem NoRoom.fetchStats (h : NoRoom m) (key : K) (stored : UTime)
    (fetched : Except Int StorageStats) :
    ∃ m', QuotaCache.fetchStats m key stored fetched = some (m', answered fetched) ∧ NoRoom m' := by
  cases fetched with
  | error ret =>
    simp only [QuotaCache.fetchStats, answered]
    split_ifs
    · exact ⟨m, rfl, h⟩
    · obtain ⟨m', hset, hm'⟩ := h.setStats key {} stored
      exact ⟨m', by rw [hset]; rfl, hm'⟩
  | ok stats =>
    obtain ⟨m', hset, hm'⟩ := h.setStats key stats stored
    exact ⟨m', by rw [QuotaCache.fetchStats, hset]; rfl, hm'⟩

theorem NoRoom.getStats (h : NoRoom m)
    (canUse : SoftThresholds → StorageStats → Bool × SoftThresholds)
    (key : K) (clock : QuotaClock) (fetched : Except Int StorageStats) (soft : SoftThresholds) :
    ∃ m', QuotaCache.getStats canUse m key clock fetched soft = some (m', answered fetched, soft) ∧
    NoRoom m' := by
  obtain ⟨m', hfetch, hm'⟩ := h.fetchStats key clock.stored fetched
  refine ⟨m', ?_, hm'⟩
  unfold QuotaCache.getStats
  rw [LruMap.find, h.findEntry]
  simp only [bind_some, hfetch, map_some]

theorem NoRoom.adjustStats (h : NoRoom m) (key : K) (u : StatsUpdate) :
    QuotaCache.adjustStats m key u = some m := by
  rw [QuotaCache.adjustStats, LruMap.findAndUpdate, h.findEntry]
  rfl

end NoRoom

namespace QuotaHandler

variable {h : QuotaHandler} {c : Check} {bucketStats userStats : StorageStats}

def CachesNothing (h : QuotaHandler) : Prop := NoRoom h.bucketStatsCache ∧ NoRoom h.userStatsCache

theorem CachesNothing.cachedStats (hnone : h.CachesNothing) (bucket user : Bytes) :
    h.cachedStats bucket user = (none, none) := by
  rw [QuotaHandler.cachedStats, hnone.1.lookup, hnone.2.lookup]
  rfl

def quotas (h : QuotaHandler) (c : Check) : Quotas :=
  ⟨c.userQuota, c.bucketQuota, h.defUserQuota, h.defBucketQuota⟩

theorem CachesNothing.checkUser (hnone : h.CachesNothing) (c : Check) :
    ∃ h' ret, h.checkUser c = some (h', ret) ∧ h'.CachesNothing ∧
      ∀ userStats, answered c.userFetch = .ok userStats → ret = h.userVerdict c userStats := by
  unfold QuotaHandler.checkUser
  split_ifs with henabled
  · obtain ⟨m', hget, hm'⟩ :=
      hnone.2.getStats (fun soft _ => (true, soft)) c.user c.userClock c.userFetch {}
    refine ⟨{ h with userStatsCache := m' }, _, by rw [hget]; rfl, ⟨hnone.1, hm'⟩,
      fun userStats hfetch => ?_⟩
    rw [hfetch]
  · refine ⟨h, 0, rfl, hnone, fun userStats _ => ?_⟩
    simp only [Bool.or_eq_true, not_or, Bool.not_eq_true] at henabled
    simp [userVerdict, henabled.1, henabled.2]

theorem CachesNothing.checkLimits (hnone : h.CachesNothing) (c : Check) (stats : StorageStats) :
    ∃ h' ret, h.checkLimits c stats = some (h', ret) ∧ h'.CachesNothing ∧
      ∀ userStats, answered c.userFetch = .ok userStats →
        ret = (h.quotas c).verdict stats userStats c.numObjs (roundedObjsizeKb c.size) := by
  simp only [QuotaHandler.checkLimits]
  split_ifs with hbucket hdefBucket
  · exact ⟨h, _, rfl, hnone, fun _ _ => (if_pos hbucket).symm⟩
  · exact ⟨h, _, rfl, hnone, fun _ _ => ((if_neg hbucket).trans (if_pos hdefBucket)).symm⟩
  · obtain ⟨h', ret, huser, h'none, hret⟩ := hnone.checkUser c
    refine ⟨h', ret, huser, h'none, fun userStats hok => ?_⟩
    exact (hret userStats hok).trans ((if_neg hbucket).trans (if_neg hdefBucket)).symm

/-- Without a cache the verdict is one over fetched statistics. -/
theorem CachesNothing.checkQuota (hnone : h.CachesNothing) (c : Check) :
    ∃ h' ret, h.checkQuota c = some (h', ret) ∧ h'.CachesNothing ∧
      ∀ bucketStats userStats, answered c.bucketFetch = .ok bucketStats →
      answered c.userFetch = .ok userStats →
        ret = (h.quotas c).verdict bucketStats userStats c.numObjs (roundedObjsizeKb c.size) := by
  unfold QuotaHandler.checkQuota
  split_ifs with hdisabled
  · refine ⟨h, 0, rfl, hnone, fun bucketStats userStats _ _ => ?_⟩
    simp only [Bool.and_eq_true, Bool.not_eq_true'] at hdisabled
    obtain ⟨⟨⟨hbucket, huser⟩, hdefBucket⟩, hdefUser⟩ := hdisabled
    simp [Quotas.verdict, quotas, hbucket, huser, hdefBucket, hdefUser]
  · obtain ⟨m', hget, hm'⟩ :=
      hnone.1.getStats (canUseCachedStats c.bucketQuota) c.bucket c.bucketClock
      c.bucketFetch c.soft
    have hnone' : CachesNothing { h with bucketStatsCache := m' } := ⟨hm', hnone.2⟩
    rw [hget]
    cases hanswer : answered c.bucketFetch with
    | error ret => exact ⟨_, ret, rfl, hnone', fun _ _ hok => by cases hok⟩
    | ok stats =>
      obtain ⟨h', ret, hlimits, h'none, hret⟩ := hnone'.checkLimits c stats
      refine ⟨h', ret, hlimits, h'none, fun bucketStats userStats hok huser => ?_⟩
      obtain rfl := Except.ok.inj hok
      exact hret userStats huser

theorem CachesNothing.updateStats (hnone : h.CachesNothing) {user bucket : Bytes} {u : StatsUpdate}
    {h' : QuotaHandler} (hupdate : h.updateStats user bucket u = some h') : h'.CachesNothing := by
  unfold QuotaHandler.updateStats at hupdate
  rw [hnone.1.adjustStats, hnone.2.adjustStats] at hupdate
  simp only [bind_some, map_some, some.injEq] at hupdate
  subst hupdate
  unfold dataModified
  split_ifs <;> exact hnone

theorem Reachable.cachesNothing (hreach : h.Reachable) : h.CachesNothing := by
  induction hreach with
  | new d => exact ⟨noRoom_new, noRoom_new⟩
  | @check h h' c ret _ hcheck ih =>
    obtain ⟨h'', ret', hcheck', hnone, -⟩ := ih.checkQuota c
    rw [hcheck'] at hcheck
    obtain ⟨rfl, -⟩ := Prod.mk.inj (some.inj hcheck)
    exact hnone
  | update _ hupdate ih => exact ih.updateStats hupdate

end QuotaHandler

namespace QuotaInfo

variable (q : QuotaInfo) (s : StorageStats) (numObjs size : UInt64)

def Within : Prop :=
  (0 ≤ q.maxObjects → (s.numObjects.toNat + numObjs.toNat : Int) ≤ q.maxObjects.toInt) ∧
    (0 ≤ q.maxSizeKb → (s.numKbRounded.toNat + blockKb size.toNat : Int) ≤ q.maxSizeKb.toInt)

def Refuses : Prop :=
  q.exceedsObjects s numObjs = true ∨ q.exceedsSize s (roundedObjsizeKb size) = true

def FitsWords : Prop :=
  (0 ≤ q.maxObjects → s.numObjects.toNat + numObjs.toNat < 2 ^ 64) ∧
    (0 ≤ q.maxSizeKb → s.numKbRounded.toNat + blockKb size.toNat < 2 ^ 64 ∧
      (TooLarge size → (s.numKbRounded.toNat + 2 ^ 54 : Int) ≤ q.maxSizeKb.toInt))

instance : Decidable (q.FitsWords s numObjs size) :=
  inferInstanceAs (Decidable ((_ → _) ∧ (_ → _ ∧ (_ → _))))

variable {q s numObjs size}

theorem limit_lt_add_iff {limit : Int64} (h : 0 ≤ limit) (a b : UInt64) :
    limit.toUInt64 < a + b ↔ limit.toInt < ((a.toNat + b.toNat) % 2 ^ 64 : Nat) := by
  have hnonneg : 0 ≤ limit.toInt := Int64.le_iff_toInt_le.mp h
  rw [UInt64.lt_iff_toNat_lt, UInt64.toNat_add, Int64.toNat_toUInt64_of_le h, ← Int64.toNat_toInt]
  omega

theorem refuses_iff : q.Refuses s numObjs size ↔
      (0 ≤ q.maxObjects ∧
        q.maxObjects.toInt < ((s.numObjects.toNat + numObjs.toNat) % 2 ^ 64 : Nat)) ∨
      (0 ≤ q.maxSizeKb ∧ q.maxSizeKb.toInt <
        ((s.numKbRounded.toNat + (roundedObjsizeKb size).toNat) % 2 ^ 64 : Nat)) := by
  simp only [Refuses, exceedsObjects, exceedsSize, Bool.and_eq_true, decide_eq_true_eq]
  rw [and_congr_right fun h => limit_lt_add_iff h _ _, and_congr_right fun h =>
    limit_lt_add_iff h _ _]

theorem Within.not_refuses (h : q.Within s numObjs size) : ¬ q.Refuses s numObjs size := by
  rw [refuses_iff]
  rintro (⟨hlimit, hlt⟩ | ⟨hlimit, hlt⟩)
  · have hle := h.1 hlimit
    omega
  · have hle := h.2 hlimit
    by_cases hlarge : TooLarge size
    · have hzero := toNat_roundedObjsizeKb_of_tooLarge hlarge
      omega
    · rw [toNat_roundedObjsizeKb_of_le hlarge] at hlt
      omega

/-- A check that passes means that the limits are kept, unless a sum wraps. -/
theorem within_iff (h : ¬ q.Refuses s numObjs size) : q.Within s numObjs size ↔
    q.FitsWords s numObjs size := by
  have hobjects := q.maxObjects.toInt_lt
  have hsize := q.maxSizeKb.toInt_lt
  rw [refuses_iff, not_or] at h
  refine and_congr (forall_congr' fun hlimit => ?_) (forall_congr' fun hlimit => ?_)
  · have hle := not_lt.mp fun hlt => h.1 ⟨hlimit, hlt⟩
    omega
  · have hle := not_lt.mp fun hlt => h.2 ⟨hlimit, hlt⟩
    by_cases hlarge : TooLarge size
    · obtain ⟨hzero, hblock⟩ := toNat_roundedObjsizeKb_of_tooLarge hlarge
      rw [hblock, imp_iff_right hlarge]
      omega
    · rw [toNat_roundedObjsizeKb_of_le hlarge] at hle
      simp only [hlarge, false_imp_iff, and_true]
      omega

end QuotaInfo

namespace Quotas

variable (q : Quotas) (bucketStats userStats : StorageStats)

def applicable : List (QuotaInfo × StorageStats) :=
  [(q.bucket, bucketStats), (q.defBucket, bucketStats),
    (if q.user.enabled then q.user else q.defUser, userStats)].filter (·.1.enabled)

variable {q bucketStats userStats}

theorem forall_applicable {P : QuotaInfo × StorageStats → Prop} :
    (∀ p ∈ q.applicable bucketStats userStats, P p) ↔
      (q.bucket.enabled = true → P (q.bucket, bucketStats)) ∧
      (q.defBucket.enabled = true → P (q.defBucket, bucketStats)) ∧
      (q.user.enabled = true → P (q.user, userStats)) ∧
      (¬ q.user.enabled = true → q.defUser.enabled = true → P (q.defUser, userStats)) := by
  by_cases huser : q.user.enabled = true
  · simp [applicable, List.mem_filter, huser, or_imp, forall_and]
  · simp [applicable, List.mem_filter, huser, or_imp, forall_and]

section Check

variable {quota : QuotaInfo} {s : StorageStats} {numObjs size : UInt64}

theorem check_of_refuses (henabled : quota.enabled = true) (h : quota.Refuses s numObjs size) :
    quota.check s numObjs (roundedObjsizeKb size) = -Err.quotaExceeded := by
  simp only [QuotaInfo.check, henabled, Bool.not_true, Bool.false_eq_true, if_false]
  rcases h with hobjects | hsize
  · rw [if_pos hobjects]
  · rw [if_pos hsize, ite_self]

theorem check_of_not_refuses (h : ¬ quota.Refuses s numObjs size) :
    quota.check s numObjs (roundedObjsizeKb size) = 0 := by
  obtain ⟨hobjects, hsize⟩ := not_or.mp h
  rw [QuotaInfo.check, if_neg hobjects, if_neg hsize, ite_self]

theorem check_eq_zero_iff (henabled : quota.enabled = true) :
    quota.check s numObjs (roundedObjsizeKb size) = 0 ↔ ¬ quota.Refuses s numObjs size := by
  refine ⟨fun h hrefuses => ?_, check_of_not_refuses⟩
  rw [check_of_refuses henabled hrefuses] at h
  revert h
  decide

theorem check_neg_iff (henabled : quota.enabled = true) :
    quota.check s numObjs (roundedObjsizeKb size) < 0 ↔ quota.Refuses s numObjs size := by
  refine ⟨fun h => ?_, fun h => by rw [check_of_refuses henabled h]; decide⟩
  by_contra hnot
  rw [check_of_not_refuses hnot] at h
  omega

end Check

/-- An upload passes exactly if no quota that applies refuses it. -/
theorem verdict_eq_zero_iff {numObjs size : UInt64} :
    q.verdict bucketStats userStats numObjs (roundedObjsizeKb size) = 0 ↔
      ∀ p ∈ q.applicable bucketStats userStats, ¬ p.1.Refuses p.2 numObjs size := by
  rw [forall_applicable, verdict]
  split_ifs with hbucket hdefBucket huser hdefUser
  · refine iff_of_false hbucket.2.ne fun h => ?_
    exact h.1 hbucket.1 ((check_neg_iff hbucket.1).mp hbucket.2)
  · refine iff_of_false hdefBucket.2.ne fun h => ?_
    exact h.2.1 hdefBucket.1 ((check_neg_iff hdefBucket.1).mp hdefBucket.2)
  all_goals
    have hbucket' (henabled : q.bucket.enabled = true) :
        ¬ q.bucket.Refuses bucketStats numObjs size :=
      fun h => hbucket ⟨henabled, (check_neg_iff henabled).mpr h⟩
    have hdefBucket' (henabled : q.defBucket.enabled = true) :
        ¬ q.defBucket.Refuses bucketStats numObjs size :=
      fun h => hdefBucket ⟨henabled, (check_neg_iff henabled).mpr h⟩
    rw [and_iff_right hbucket', and_iff_right hdefBucket']
  · rw [check_eq_zero_iff huser]
    exact ⟨fun h => ⟨fun _ => h, fun hnot => absurd huser hnot⟩, fun h => h.1 huser⟩
  · rw [check_eq_zero_iff hdefUser]
    exact ⟨fun h => ⟨fun h' => absurd h' huser, fun _ _ => h⟩, fun h => h.2 huser hdefUser⟩
  · exact iff_of_true rfl ⟨fun h' => absurd h' huser, fun _ h' => absurd h' hdefUser⟩

end Quotas

namespace QuotaHandler

/-- Whatever was checked and updated before, a check is made on the statistics that are fetched for
it. -/
theorem checks_what_is_fetched (h : {h : QuotaHandler // h.Reachable}) (c : Check) :
    ∃ h' ret, h.1.checkQuota c = some (h', ret) ∧
    (∀ bucket user, h'.cachedStats bucket user = (none, none)) ∧
      ∀ bucketStats userStats, answered c.bucketFetch = .ok bucketStats →
      answered c.userFetch = .ok userStats →
        (ret = 0 ↔ ∀ p ∈ (h.1.quotas c).applicable bucketStats userStats,
          ¬ p.1.Refuses p.2 c.numObjs c.size) := by
  obtain ⟨h', ret, heq, hnone, hret⟩ := h.2.cachesNothing.checkQuota c
  refine ⟨h', ret, heq, hnone.cachedStats, fun bucketStats userStats hbucket huser => ?_⟩
  rw [hret bucketStats userStats hbucket huser, Quotas.verdict_eq_zero_iff]

/-- A check succeeds iff every quota that applies is kept, and a denied one leaves what is cached as
it is, exactly when a quota refuses by its own tests or the numbers of all fit in words. -/
theorem checkQuota_exact_iff {h : QuotaHandler} (hreach : h.Reachable) (c : Check)
    {bucketStats userStats : StorageStats} (hbucket : answered c.bucketFetch = .ok bucketStats)
    (huser : answered c.userFetch = .ok userStats) : ∃ h' ret, h.checkQuota c = some (h', ret) ∧
      (((ret = 0 ↔ ∀ p ∈ (h.quotas c).applicable bucketStats userStats,
        p.1.Within p.2 c.numObjs c.size) ∧
          (ret ≠ 0 → ∀ bucket user, h'.cachedStats bucket user = h.cachedStats bucket user)) ↔
        (∃ p ∈ (h.quotas c).applicable bucketStats userStats, p.1.Refuses p.2 c.numObjs c.size) ∨
          ∀ p ∈ (h.quotas c).applicable bucketStats userStats,
            p.1.FitsWords p.2 c.numObjs c.size) := by
  obtain ⟨h', ret, hcheck, h'none, hret⟩ := hreach.cachesNothing.checkQuota c
  have hcached (bucket user : Bytes) : h'.cachedStats bucket user = h.cachedStats bucket user := by
    rw [h'none.cachedStats, hreach.cachesNothing.cachedStats]
  refine ⟨h', ret, hcheck, ?_⟩
  rw [and_iff_left fun _ => hcached, hret bucketStats userStats hbucket huser,
    Quotas.verdict_eq_zero_iff]
  by_cases hrefuses : ∃ p ∈ (h.quotas c).applicable bucketStats userStats,
    p.1.Refuses p.2 c.numObjs c.size
  · obtain ⟨p, hp, hpr⟩ := hrefuses
    refine iff_of_true (iff_of_false (fun hall => hall p hp hpr) fun hall => ?_) (.inl ⟨p, hp, hpr⟩)
    exact (hall p hp).not_refuses hpr
  · have hnone : ∀ p ∈ (h.quotas c).applicable bucketStats userStats,
      ¬ p.1.Refuses p.2 c.numObjs c.size :=
      fun p hp hpr => hrefuses ⟨p, hp, hpr⟩
    rw [iff_true_left hnone, or_iff_right hrefuses]
    exact forall₂_congr fun p hp => QuotaInfo.within_iff (hnone p hp)

def Sample.check (size : UInt64) : Check where
  user := ascii "u"
  bucket := ascii "b"
  userQuota := {}
  bucketQuota := ⟨8, -1, true⟩
  soft := {}
  numObjs := 1
  size := size
  bucketClock := ⟨⟨0, 0⟩, ⟨0, 0⟩, ⟨0, 0⟩⟩
  userClock := ⟨⟨0, 0⟩, ⟨0, 0⟩, ⟨0, 0⟩⟩
  bucketFetch := .ok {}
  userFetch := .ok {}

/-- An object of one block. -/
theorem small_object_checked : ∃ h' ret, (new {}).checkQuota (Sample.check 4096) = some (h', ret) ∧
      (ret = 0 ↔ ∀ p ∈ ((new {}).quotas (Sample.check 4096)).applicable {} {},
        p.1.Within p.2 1 4096) ∧
      (ret ≠ 0 → ∀ bucket user, h'.cachedStats bucket user = (new {}).cachedStats bucket user) := by
  obtain ⟨h', ret, hcheck, hiff⟩ := checkQuota_exact_iff (.new {}) (Sample.check 4096) rfl rfl
  refine ⟨h', ret, hcheck, hiff.mpr (.inr ?_)⟩
  decide

/-- An object of almost 2 ^ 64 bytes. -/
theorem huge_object_passes :
    ∃ h', (new {}).checkQuota (Sample.check (0xffffffffffffffff)) = some (h', 0) ∧
      ((⟨8, -1, true⟩, {}) ∈
        ((new {}).quotas (Sample.check (0xffffffffffffffff))).applicable {} {}) ∧
      ¬ QuotaInfo.Within ⟨8, -1, true⟩ {} 1 (0xffffffffffffffff) := by
  obtain ⟨h', ret, hcheck, -, hret⟩ :=
    (Reachable.new {}).cachesNothing.checkQuota (Sample.check (0xffffffffffffffff))
  have hzero : ret = 0 := (hret {} {} rfl rfl).trans (by decide)
  refine ⟨h', hzero ▸ hcheck, by decide, fun h => ?_⟩
  exact absurd (h.2 (by decide)) (by decide)

end QuotaHandler

end RadosGateway
