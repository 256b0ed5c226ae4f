import RadosGateway.Base.Bytes

/-!
# The usage log

An entry counts the traffic of a bucket by category, and beside that the total. Entries are
aggregated, by `usage_log` and by the readers of the log, in whatever order they come. -/

namespace RadosGateway.UsageLog

open Text

structure UsageData where
  bytesSent : UInt64 := 0
  bytesReceived : UInt64 := 0
  ops : UInt64 := 0
  successfulOps : UInt64 := 0
  deriving DecidableEq

def UsageData.aggregate (this usage : UsageData) : UsageData where
  bytesSent := this.bytesSent + usage.bytesSent
  bytesReceived := this.bytesReceived + usage.bytesReceived
  ops := this.ops + usage.ops
  successfulOps := this.successfulOps + usage.successfulOps

/-- `rgw_usage_log_entry`; the map in the order of its keys. -/
structure Entry where
  owner : Bytes := []
  bucket : Bytes := []
  epoch : UInt64 := 0
  totalUsage : UsageData := {}
  usageMap : List (Bytes × UsageData) := []
  deriving DecidableEq

def aggregateAt (category : Bytes) (data : UsageData) : List (Bytes × UsageData) →
    List (Bytes × UsageData)
  | [] => [(category, ({} : UsageData).aggregate data)]
  | (c, usage) :: m =>
    if category = c then (c, usage.aggregate data) :: m
    else if category < c then (category, ({} : UsageData).aggregate data) :: (c, usage) :: m
    else (c, usage) :: aggregateAt category data m

def Entry.add (this : Entry) (category : Bytes) (data : UsageData) : Entry :=
  { this with
    usageMap := aggregateAt category data this.usageMap,
    totalUsage := this.totalUsage.aggregate data }

def admits (categories : List Bytes) (category : Bytes) : Bool :=
  categories.isEmpty || categories.contains category

def Entry.aggregate (this e : Entry) (categories : Option (List Bytes)) : Entry :=
  let this :=
    if this.owner.isEmpty then { this with owner := e.owner, bucket := e.bucket, epoch := e.epoch }
      else this
  e.usageMap.foldl (fun this p => if categories.all (admits · p.1) then this.add p.1 p.2
    else this) this

def Entry.sum (this : Entry) (categories : List Bytes) : UsageData :=
  this.usageMap.foldl (fun usage p => if admits categories p.1 then usage.aggregate p.2
    else usage) {}

inductive Call
  | add (category : Bytes) (data : UsageData)
  | aggregate (e : Entry) (categories : Option (List Bytes))
  deriving DecidableEq

def Entry.call (this : Entry) : Call → Entry
  | .add category data => this.add category data
  | .aggregate e categories => this.aggregate e categories

/-- An order in which entries are aggregated: into a new entry, into one of them, and of groups. -/
inductive Grouping
  | fresh
  | entry (e : Entry)
  | aggregate (into group : Grouping)
  deriving DecidableEq

def Grouping.result : Grouping → Entry
  | .fresh => {}
  | .entry e => e
  | .aggregate into group => into.result.aggregate group.result none

def Grouping.entries : Grouping → List Entry
  | .fresh => []
  | .entry e => [e]
  | .aggregate into group => into.entries ++ group.entries

/-- `utime_t::round_to_hour`; `mktime` takes the fields of `gmtime_r` for local time. -/
def roundToHour (zone : Int) (timestamp : UInt32) : UInt32 :=
  UInt32.ofNat (((timestamp.toNat / 3600 * 3600 : Nat) - zone) % 2 ^ 32).toNat

abbrev Key := Bytes × Bytes × UInt32

/-- `UsageLogger`, with the two maps as one, and with all that was passed to `log_usage`. -/
structure Logger where
  usageMap : List (Key × Entry) := []
  numEntries : Nat := 0
  roundTimestamp : UInt32
  logged : List (Key × Entry) := []
  deriving DecidableEq

def Logger.init (zone : Int) (now : UInt32) : Logger := { roundTimestamp := roundToHour zone now }

def insertAt (key : Key) (entry : Entry) : List (Key × Entry) → List (Key × Entry)
  | [] => [(key, ({} : Entry).aggregate entry none)]
  | (k, e) :: m => if key = k then (k, e.aggregate entry none) :: m
    else (k, e) :: insertAt key entry m

inductive LoggerCall
  | insert (timestamp : UInt32) (entry : Entry)
  | flush
  deriving DecidableEq

/-- What is done under the lock; the flush of a full map is a step of its own. -/
def Logger.step (zone : Int) (l : Logger) : LoggerCall → Logger
  | .insert timestamp entry =>
    let round := if timestamp.toNat > l.roundTimestamp.toNat + 3600 then roundToHour zone timestamp
      else l.roundTimestamp
    let key := (entry.owner, entry.bucket, round)
    { l with
      roundTimestamp := round,
      usageMap := insertAt key { entry with epoch := round.toUInt64 } l.usageMap,
      numEntries := if l.usageMap.any (·.1 = key) then l.numEntries else l.numEntries + 1 }
  | .flush => { l with usageMap := [], numEntries := 0, logged := l.logged ++ l.usageMap }

end RadosGateway.UsageLog
