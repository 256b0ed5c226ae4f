import RadosGateway.ObjectCache

/-!
# The log of metadata changes

A change of a metadata object is announced in the log before it is made, and its outcome is logged
behind it. What the log and the store answer comes from outside. -/

namespace RadosGateway.MetadataLog

open Text

inductive Status
  | unknown
  | write
  | setattrs
  | remove
  | complete
  | abort
  deriving DecidableEq

structure VersionTracker where
  readVersion : ObjVersion := {}
  writeVersion : ObjVersion := {}
  deriving DecidableEq

structure LogData where
  readVersion : ObjVersion := {}
  writeVersion : ObjVersion := {}
  status : Status := .unknown
  deriving DecidableEq

inductive Event
  | log (sectionName key : Bytes) (data : LogData) (ret : Int)
  | mutate (op : Status) (key : Bytes) (tracker : Option VersionTracker) (ret : Int)
  deriving DecidableEq

/-- A call for a key of a handler, with the answers of the log, the store and the log again. -/
structure Call where
  sectionName : Bytes
  key : Bytes
  tracker : Option VersionTracker
  pre : Int
  mutation : Int
  post : Int
  deriving DecidableEq

/-- `RGWMetadataLog::add_entry`: nothing is written in a zone that does not log metadata. -/
def addEntry (logMeta : Bool) (sectionName key : Bytes) (data : LogData) (answer : Int) :
    Int × List Event :=
  if logMeta then (answer, [.log sectionName key data answer]) else (0, [])

def setWriteVersion (tracker : VersionTracker) : VersionTracker :=
  if tracker.readVersion.ver ≠ 0 ∧ tracker.writeVersion.ver = 0 then
    { tracker with writeVersion := { tracker.readVersion with ver := tracker.readVersion.ver + 1 } }
  else tracker

/-- Also gives the data to log and what becomes of the tracker. -/
def preModify (logMeta : Bool) (c : Call) (opType : Status) :
    (Int × List Event) × LogData × Option VersionTracker :=
  let tracker := c.tracker.map setWriteVersion
  let versions := tracker.getD {}
  let data : LogData := ⟨versions.readVersion, versions.writeVersion, opType⟩
  (addEntry logMeta c.sectionName c.key data c.pre, data, tracker)

def postModify (logMeta : Bool) (c : Call) (data : LogData) (ret : Int) : Int × List Event :=
  let data := { data with status := if ret ≥ 0 then .complete else .abort }
  let (r, events) := addEntry logMeta c.sectionName c.key data c.post
  (if ret < 0 then ret else if r < 0 then r else 0, events)

def modify (opType : Status) (logMeta : Bool) (c : Call) : Int × List Event :=
  let ((ret, before), data, tracker) := preModify logMeta c opType
  if ret < 0 then (ret, before)
  else
    let (ret, behind) := postModify logMeta c data c.mutation
    (ret, before ++ .mutate opType c.key tracker c.mutation :: behind)

def putEntry : Bool → Call → Int × List Event := modify .write

def removeEntry : Bool → Call → Int × List Event := modify .remove

def setAttrs : Bool → Call → Int × List Event := modify .setattrs

inductive Request
  | putEntry (c : Call)
  | removeEntry (c : Call)
  | setAttrs (c : Call)
  deriving DecidableEq

def Request.events (logMeta : Bool) : Request → List Event
  | .putEntry c => (MetadataLog.putEntry logMeta c).2
  | .removeEntry c => (MetadataLog.removeEntry logMeta c).2
  | .setAttrs c => (MetadataLog.setAttrs logMeta c).2

def Request.op : Request → Status
  | .putEntry _ => .write
  | .removeEntry _ => .remove
  | .setAttrs _ => .setattrs

def Request.call : Request → Call
  | .putEntry c | .removeEntry c | .setAttrs c => c

/-- The change of the store that a request is for. -/
def Request.change (r : Request) : Event :=
  .mutate r.op r.call.key (r.call.tracker.map setWriteVersion) r.call.mutation

def trace (logMeta : Bool) (requests : List Request) : List Event :=
  requests.flatMap (Request.events logMeta)

end RadosGateway.MetadataLog
