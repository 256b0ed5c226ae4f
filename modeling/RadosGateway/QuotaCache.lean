import RadosGateway.DirEntry
import RadosGateway.LruMap
import RadosGateway.Quota

/-!
# The quota handler and its caches

`RGWQuotaHandlerImpl` with the statistics it keeps in two `lru_map`s, one for buckets and one for
users. The clock and what is fetched come from outside. In the port the statistics of a user are
never fetched, and nothing comes of an asynchronous refresh. -/

namespace RadosGateway

open Text

def UTime.before (a b : UTime) : Bool := a.sec < b.sec || (a.sec = b.sec && a.nsec < b.nsec)

structure QuotaCacheStats where
  stats : StorageStats
  expiration : UTime
  asyncRefreshTime : UTime
  deriving DecidableEq

/-- The soft thresholds of an `RGWQuotaInfo`, which are not stored with it. -/
structure SoftThresholds where
  maxSize : Int64 := -1
  maxObjs : Int64 := -1
  deriving DecidableEq

/-- The readings of the clock in `get_stats`: at its start, for the expiration, and in `set_stats`.
-/
structure QuotaClock where
  now : UTime
  later : UTime
  stored : UTime

namespace QuotaCache

/-- The part of `can_use_cached_stats` about one limit: whether the cached number may be used, and
the threshold, which is set to zero when it is not set. -/
def belowThreshold (limit soft : Int64) (cached : UInt64) : Bool × Int64 :=
  if 0 ≤ limit then
    let soft := if soft < 0 then 0 else soft
    (!(soft.toUInt64 ≤ cached), soft)
  else (true, soft)

/-- `can_use_cached_stats` of the bucket cache. -/
def canUseCachedStats (quota : QuotaInfo) (soft : SoftThresholds) (cached : StorageStats) :
    Bool × SoftThresholds :=
  let size := belowThreshold quota.maxSizeKb soft.maxSize cached.numKbRounded
  if !size.1 then (false, { soft with maxSize := size.2 })
  else
    let objs := belowThreshold quota.maxObjects soft.maxObjs cached.numObjects
    (objs.1, { maxSize := size.2, maxObjs := objs.2 })

def asyncTestSet : LruMap.UpdateContext QuotaCacheStats := fun entry =>
  if entry.asyncRefreshTime.sec = 0 then (false, entry)
  else (true, { entry with asyncRefreshTime := ⟨0, 0⟩ })

variable {K : Type} [DecidableEq K]

abbrev StatsMap (K : Type) := LruMap K QuotaCacheStats

/-- `async_refresh`, whose `init_fetch` starts nothing. -/
def asyncRefresh (m : StatsMap K) (key : K) : Option (StatsMap K) :=
  (m.findAndUpdate key (some asyncTestSet)).map Prod.fst

def setStats (m : StatsMap K) (key : K) (stats : StorageStats) (stored : UTime) :
    Option (StatsMap K) :=
  m.add key ⟨stats, stored, stored⟩

/-- `get_stats` behind a cache that has nothing to offer: `stats` was initialised by the caller. -/
def fetchStats (m : StatsMap K) (key : K) (stored : UTime) :
    Except Int StorageStats → Option (StatsMap K × Except Int StorageStats)
  | .error ret =>
    if ret < 0 ∧ ret ≠ -Errno.enoent.code then some (m, .error ret)
    else (setStats m key {} stored).map fun m => (m, .ok {})
  | .ok stats => (setStats m key stats stored).map fun m => (m, .ok stats)

/-- `get_stats`: the cache, the statistics or the error, and the thresholds of the quota. -/
def getStats (canUse : SoftThresholds → StorageStats → Bool × SoftThresholds) (m : StatsMap K)
    (key : K)
    (clock : QuotaClock) (fetched : Except Int StorageStats) (soft : SoftThresholds) :
    Option (StatsMap K × Except Int StorageStats × SoftThresholds) :=
  (m.find key).bind fun r =>
    match r.2.value with
    | none => (fetchStats r.1 key clock.stored fetched).map fun f => (f.1, f.2, soft)
    | some qs =>
      let refreshed :=
        if 0 < qs.asyncRefreshTime.sec ∧ !clock.now.before qs.asyncRefreshTime then
          asyncRefresh r.1 key
        else some r.1
      refreshed.bind fun m =>
        let use := canUse soft qs.stats
        if use.1 ∧ clock.later.before qs.expiration then some (m, .ok qs.stats, use.2)
        else (fetchStats m key clock.stored fetched).map fun f => (f.1, f.2, use.2)

structure StatsUpdate where
  objsDelta : Int32
  addedBytes : UInt64
  removedBytes : UInt64

/-- `RGWQuotaStatsUpdate::update`, on the statistics. -/
def StatsUpdate.apply (u : StatsUpdate) (s : StorageStats) : StorageStats where
  numKbRounded := s.numKbRounded + (roundedObjsizeKb u.addedBytes - roundedObjsizeKb u.removedBytes)
  numKb := s.numKb + (u.addedBytes - u.removedBytes) / 1024
  numObjects := s.numObjects + u.objsDelta.toInt64.toUInt64

def StatsUpdate.update (u : StatsUpdate) : LruMap.UpdateContext QuotaCacheStats := fun entry =>
  (true, { entry with stats := u.apply entry.stats })

/-- `adjust_stats`, without `data_modified`. -/
def adjustStats (m : StatsMap K) (key : K) (u : StatsUpdate) : Option (StatsMap K) :=
  (m.findAndUpdate key (some u.update)).map Prod.fst

end QuotaCache

open QuotaCache

structure QuotaHandler where
  bucketStatsCache : StatsMap Bytes
  userStatsCache : StatsMap Bytes
  modifiedBuckets : AList fun _ : Bytes => Bytes
  defBucketQuota : QuotaInfo
  defUserQuota : QuotaInfo

structure DefaultQuotas where
  bucketMaxObjects : Int32 := -1
  bucketMaxSize : Int32 := -1
  userMaxObjects : Int32 := -1
  userMaxSize : Int32 := -1

/-- A default quota: each limit that is set enables it. -/
def defaultQuota (maxObjects maxSize : Int32) : QuotaInfo where
  maxObjects := if 0 ≤ maxObjects then maxObjects.toInt64 else -1
  maxSizeKb := if 0 ≤ maxSize then maxSize.toInt64 else -1
  enabled := 0 ≤ maxObjects || 0 ≤ maxSize

namespace QuotaHandler

/-- The constructor: both caches have room for no entry. -/
def new (d : DefaultQuotas) : QuotaHandler where
  bucketStatsCache := .new 0
  userStatsCache := .new 0
  modifiedBuckets := ∅
  defBucketQuota := defaultQuota d.bucketMaxObjects d.bucketMaxSize
  defUserQuota := defaultQuota d.userMaxObjects d.userMaxSize

structure Check where
  user : Bytes
  bucket : Bytes
  userQuota : QuotaInfo
  bucketQuota : QuotaInfo
  soft : SoftThresholds
  numObjs : UInt64
  size : UInt64
  bucketClock : QuotaClock
  userClock : QuotaClock
  /-- What the storage answers for the bucket and for the user. -/
  bucketFetch : Except Int StorageStats
  userFetch : Except Int StorageStats

/-- The check of the user's quota or, if there is none, of the default. -/
def userVerdict (h : QuotaHandler) (c : Check) (stats : StorageStats) : Int :=
  if c.userQuota.enabled then c.userQuota.check stats c.numObjs (roundedObjsizeKb c.size)
  else if h.defUserQuota.enabled then h.defUserQuota.check stats c.numObjs (roundedObjsizeKb c.size)
  else 0

def checkUser (h : QuotaHandler) (c : Check) : Option (QuotaHandler × Int) :=
  if c.userQuota.enabled || h.defUserQuota.enabled then
    (getStats (fun soft _ => (true, soft)) h.userStatsCache c.user c.userClock c.userFetch {}).map
      fun r =>
      ({ h with userStatsCache := r.1 }, match r.2.1 with
        | .error ret => ret
        | .ok stats => h.userVerdict c stats)
  else some (h, 0)

/-- The part of `check_quota` behind the statistics of the bucket. -/
def checkLimits (h : QuotaHandler) (c : Check) (stats : StorageStats) :
    Option (QuotaHandler × Int) :=
  let sizeKb := roundedObjsizeKb c.size
  if c.bucketQuota.enabled ∧ c.bucketQuota.check stats c.numObjs sizeKb < 0 then
    some (h, c.bucketQuota.check stats c.numObjs sizeKb)
  else if h.defBucketQuota.enabled ∧ h.defBucketQuota.check stats c.numObjs sizeKb < 0 then
    some (h, h.defBucketQuota.check stats c.numObjs sizeKb)
  else h.checkUser c

/-- `check_quota`: the handler behind the call, and its result. -/
def checkQuota (h : QuotaHandler) (c : Check) : Option (QuotaHandler × Int) :=
  if !c.bucketQuota.enabled && !c.userQuota.enabled && !h.defBucketQuota.enabled &&
    !h.defUserQuota.enabled then
    some (h, 0)
  else
    (getStats (canUseCachedStats c.bucketQuota) h.bucketStatsCache c.bucket c.bucketClock
      c.bucketFetch
      c.soft).bind fun r =>
        let h := { h with bucketStatsCache := r.1 }
        match r.2.1 with
        | .error ret => some (h, ret)
        | .ok stats => h.checkLimits c stats

/-- `data_modified` of the user cache. -/
def dataModified (h : QuotaHandler) (user bucket : Bytes) : QuotaHandler :=
  if (h.modifiedBuckets.lookup bucket).isNone then
    { h with modifiedBuckets := h.modifiedBuckets.insert bucket user }
  else h

def updateStats (h : QuotaHandler) (user bucket : Bytes) (u : StatsUpdate) : Option QuotaHandler :=
  (adjustStats h.bucketStatsCache bucket u).bind fun buckets =>
    (adjustStats h.userStatsCache user u).map fun users =>
      dataModified { h with bucketStatsCache := buckets, userStatsCache := users } user bucket

/-- The handlers a gateway can come to: a new one, and what calls leave behind. -/
inductive Reachable : QuotaHandler → Prop
  | new (d : DefaultQuotas) : Reachable (.new d)
  | check {h h' : QuotaHandler} {c : Check} {ret : Int} :
      Reachable h → h.checkQuota c = some (h', ret) → Reachable h'
  | update {h h' : QuotaHandler} {user bucket : Bytes} {u : StatsUpdate} :
      Reachable h → h.updateStats user bucket u = some h' → Reachable h'

/-- The statistics that are cached for a bucket and for a user. -/
def cachedStats (h : QuotaHandler) (bucket user : Bytes) :
    Option StorageStats × Option StorageStats :=
  ((h.bucketStatsCache.entries.lookup bucket).map (·.value.stats),
    (h.userStatsCache.entries.lookup user).map (·.value.stats))

end QuotaHandler

end RadosGateway
