import RadosGateway.BucketIndex
import RadosGateway.DirScan

/-!
# Listing with all parameters

`RGWRados::Bucket::List::list_objects` with namespaces, versions and instances, over any index. The
index is a function that answers a marker, a prefix and a number of entries with a page; the
gateway's own scans a directory. -/

namespace RadosGateway

open Text Posix

namespace ObjKey

def lt (k k' : ObjKey) : Bool := k.name < k'.name ∨ (k.name = k'.name ∧ k.inst < k'.inst)

def le (k k' : ObjKey) : Bool := !k'.lt k

end ObjKey

namespace ObjEnt

/-- `is_visible`: current or without versions, and not a delete marker. -/
def isVisible (e : ObjEnt) : Bool :=
  (e.flags &&& 0x1 = 0 || e.flags &&& 0x3 = 0x3) && e.flags &&& 0x4 = 0

end ObjEnt

namespace ListObjects

structure Params where
  keyPrefix : Bytes := []
  delim : Bytes := []
  marker : ObjKey := ⟨[], []⟩
  endMarker : ObjKey := ⟨[], []⟩
  ns : Bytes := []
  enforceNs : Bool := true
  listVersions : Bool := false

def indexKeyName (obj : RgwObj) : Bytes :=
  if obj.ns = [] then if obj.origObj.head? = some 95 then ascii "_" ++ obj.origObj else obj.origObj
  else ascii "_" ++ cstr obj.ns ++ ascii "_" ++ obj.origObj

/-- An object that is given an instance, a namespace and a name, where refusals go unnoticed. -/
def keyObj (ns : Bytes) (key : ObjKey) : RgwObj :=
  let obj : RgwObj := (RgwObj.setInstance key.inst {}).getD {}
  let obj := (RgwObj.setNs ns obj).getD obj
  RgwObj.setObj key.name obj

def indexKey (obj : RgwObj) : ObjKey := ⟨indexKeyName obj, obj.inst⟩

/-- `cur_end_marker`, which is empty for objects in a namespace. -/
def curEndMarker (params : Params) : ObjKey :=
  if params.ns = [] then indexKey (keyObj params.ns params.endMarker) else ⟨[], []⟩

def curPrefix (params : Params) : Bytes := indexKeyName (keyObj params.ns ⟨params.keyPrefix, []⟩)

def startMarker (params : Params) (bigger : Bytes) : ObjKey :=
  let cur := indexKey (keyObj params.ns params.marker)
  match Listing.delimPos params.delim cur.name params.keyPrefix.length with
  | none => cur
  | some pos => ⟨cur.name.take pos ++ bigger, []⟩

structure Page where
  entMap : List (Bytes × ObjEnt)
  isTruncated : Bool
  lastEntry : Option Bytes

/-- `cls_bucket_list`, by the marker, the prefix, the number of entries and whether versions are
listed. -/
abbrev Index := ObjKey → Bytes → Nat → Bool → Option Page

structure Found where
  count : Nat := 0
  truncated : Bool := true
  skipAfterDelim : Bytes := []
  marker : ObjKey := ⟨[], []⟩
  nextMarker : ObjKey := ⟨[], []⟩
  result : List ObjEnt := []
  commonPrefixes : List (Bytes × Bool) := []

section

variable (params : Params) (max : Nat) (bigger : Bytes)

/-- An entry behind all tests on names: it is rolled up or it is a result. -/
def addEntry (entry : ObjEnt) (obj : ObjKey) (ns : Bytes) (found : Found) : Found × Bool :=
  match Listing.delimPos params.delim obj.name params.keyPrefix.length with
  | some pos =>
    if obj.name.take (pos + 1) ∈ SortedMap.keys found.commonPrefixes then (found, false)
    else if max ≤ found.count then ({ found with truncated := true }, true)
    else
      let found := { found with
        nextMarker := ⟨obj.name.take (pos + 1), []⟩,
        commonPrefixes := SortedMap.insert (obj.name.take (pos + 1)) true found.commonPrefixes,
        skipAfterDelim := obj.name.take pos ++ bigger,
        count := found.count + 1 }
      (found, false)
  | none =>
    if max ≤ found.count then ({ found with truncated := true }, true)
    else
      let found := { found with
        result := found.result ++ [{ entry with key := obj, ns := ns }],
        count := found.count + 1 }
      (found, false)

/-- One turn of the inner loop; the flag says that the loops are left. -/
def visitEntry (entry : ObjEnt) (found : Found) : Found × Bool :=
  match RgwObj.parseRawOid entry.key.name with
  | none => (found, false)
  | some parsed =>
    let obj : ObjKey := ⟨parsed.name, entry.key.inst⟩
    if !params.listVersions && !entry.isVisible then (found, false)
    else if params.enforceNs && parsed.ns ≠ params.ns then
      if params.ns ≠ [] then ({ found with truncated := false }, true) else (found, false)
    else if (curEndMarker params).name ≠ [] ∧ (curEndMarker params).le obj then
      ({ found with truncated := false }, true)
    else
      let found := if found.count < max then { found with marker := obj, nextMarker := obj }
        else found
      if params.keyPrefix <+: obj.name then addEntry params max bigger entry obj parsed.ns found
      else (found, false)

def visit : List ObjEnt → Found → Found × Bool
  | [], found => (found, false)
  | entry :: entries, found =>
    match visitEntry params max bigger entry found with
    | (found, true) => (found, true)
    | (found, false) => visit entries found

variable (index : Index)

/-- The outer loop, for at most `fuel` calls of the index. -/
def listLoop : Nat → ObjKey → Found → Option Found
  | 0, _, _ => none
  | fuel + 1, curMarker, found =>
    if found.truncated ∧ found.count ≤ max then
      let curMarker :=
        if curMarker.name < found.skipAfterDelim then ⟨found.skipAfterDelim, []⟩ else curMarker
      match index curMarker (curPrefix params) (max + 1 - found.count) params.listVersions with
      | none => none
      | some page =>
        match visit params max bigger (page.entMap.map Prod.snd) found with
        | (found, true) => some found
        | (found, false) =>
          listLoop fuel ((page.lastEntry.map fun name => ⟨name, []⟩).getD curMarker)
            { found with truncated := page.isTruncated }
    else some found

end

/-- `list_objects`, with the fuel for its loop. -/
def listObjects (index : Index) (bucket : Bytes) (params : Params) (max fuel : Nat) :
    Option (Except Int Found) :=
  if bucket.head? = some 46 then some (.error (-Err.einval))
  else match Listing.biggerThanDelim params.delim with
    | none => some (.error (-Err.einval))
    | some bigger =>
      (listLoop params max bigger index fuel (startMarker params bigger)
        { marker := params.marker }).map .ok

def objEnt (e : DirScan.DirEnt) : ObjEnt where
  key := ⟨e.key, []⟩
  owner := []
  ownerDisplayName := []
  size := UInt64.ofNat e.size
  mtime := ⟨UInt32.ofInt e.mtime, 0⟩
  etag := []
  contentType := []
  tag := []
  flags := 0
  versionedEpoch := 0

/-- `cls_bucket_list` over the one shard of a bucket, which `issue_bucket_list_op` fills.
Assumption: as in `Listing.clsBucketList`, `open_bucket_index` has succeeded. -/
def dirIndex (host : DirScan.StatHost) (t : FileTree) (sh : ShellHost) (G : Global)
    (bucket : Bytes) : Index :=
  fun start filterPrefix n _ => do
    let dir ← DirScan.issueBucketListOp host t sh G bucket start.name filterPrefix n
    let page ← BucketIndex.clsBucketList objEnt n [{ m := dir }]
    some ⟨page.1, page.2.1, page.2.2⟩

end ListObjects

end RadosGateway
