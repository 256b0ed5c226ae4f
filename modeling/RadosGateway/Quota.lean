import RadosGateway.BucketStat

/-!
# Quotas

`RGWQuotaHandlerImpl::check_quota` compares the statistics of the bucket with the limits. Both
statistics caches have room for no entry, so every check reads the bucket's `stat` file again, and
the user's statistics are never filled in.
-/

namespace RadosGateway

open Text

namespace Err

def einval : Int := 22
def erange : Int := 34
def tooLarge : Int := 2019
def invalidRequest : Int := 2021
def notFound : Int := 2023
def quotaExceeded : Int := 2026
def notImplemented : Int := 2201

end Err

structure QuotaInfo where
  maxSizeKb : Int64 := -1
  maxObjects : Int64 := -1
  enabled : Bool := false
  deriving DecidableEq

structure StorageStats where
  numKb : UInt64 := 0
  numKbRounded : UInt64 := 0
  numObjects : UInt64 := 0
  deriving DecidableEq

def roundedObjsizeKb (bytes : UInt64) : UInt64 := ((bytes + 4095) &&& ~~~4095) / 1024

/-- `accumulate_raw_stats` of the one category `get_bucket_head` fills in. -/
def accumulateRawStats (info : SysInfo) : StorageStats where
  numKb := (info.totalSize + 1023) / 1024
  numKbRounded := (info.totalSizeRounded + 1023) / 1024
  numObjects := info.numEntries

namespace QuotaInfo

def exceedsObjects (quota : QuotaInfo) (stats : StorageStats) (numObjs : UInt64) : Bool :=
  0 ≤ quota.maxObjects && quota.maxObjects.toUInt64 < stats.numObjects + numObjs

def exceedsSize (quota : QuotaInfo) (stats : StorageStats) (sizeKb : UInt64) : Bool :=
  0 ≤ quota.maxSizeKb && quota.maxSizeKb.toUInt64 < stats.numKbRounded + sizeKb

def check (quota : QuotaInfo) (stats : StorageStats) (numObjs sizeKb : UInt64) : Int :=
  if !quota.enabled then 0
  else if quota.exceedsObjects stats numObjs then -Err.quotaExceeded
  else if quota.exceedsSize stats sizeKb then -Err.quotaExceeded
  else 0

end QuotaInfo

/-- The quotas of a request: those of its user and its bucket, and the configured defaults. -/
structure Quotas where
  user : QuotaInfo := {}
  bucket : QuotaInfo := {}
  defUser : QuotaInfo := {}
  defBucket : QuotaInfo := {}
  deriving DecidableEq

namespace Quotas

/-- The comparisons of `check_quota`, once the statistics are known. -/
def verdict (q : Quotas) (bucketStats userStats : StorageStats) (numObjs sizeKb : UInt64) : Int :=
  if q.bucket.enabled ∧ q.bucket.check bucketStats numObjs sizeKb < 0 then
    q.bucket.check bucketStats numObjs sizeKb
  else if q.defBucket.enabled ∧ q.defBucket.check bucketStats numObjs sizeKb < 0 then
    q.defBucket.check bucketStats numObjs sizeKb
  else if q.user.enabled then q.user.check userStats numObjs sizeKb
  else if q.defUser.enabled then q.defUser.check userStats numObjs sizeKb
  else 0

def anyEnabled (q : Quotas) : Bool :=
  q.bucket.enabled || q.user.enabled || q.defBucket.enabled || q.defUser.enabled

end Quotas

/-- `check_quota` with the statistics of the bucket from its file. Assumption: `open_bucket_index`,
which `get_bucket_stats` calls first, has succeeded (see `Listing.clsBucketList`). -/
def checkQuota (G : Global) (q : Quotas) (bucket : Bytes) (objSize : UInt64) : Prog Int :=
  if q.anyEnabled then do
    let head ← parseConf (G.statPath bucket) SysInfo.zero
    pure (q.verdict (accumulateRawStats head.2) {} 1 (roundedObjsizeKb objSize))
  else pure 0

end RadosGateway
