import RadosGateway.Base.SortedMap
import RadosGateway.Encoding
import RadosGateway.Formatter

/-!
# Entries of the bucket index

The two forms of `rgw_bucket_dir_entry`: the binary one, with versioned structures and with integers
packed into one byte or a byte that says how many follow, and the calls that dump it as JSON. -/

namespace RadosGateway

open Text Codec Encoding

def encodePackedVal (val : UInt64) : Bytes :=
  if val < 0x80 then encodeU8 val.toUInt8
  else if val < 0x100 then encodeU8 (0x80 ||| 1) ++ encodeU8 val.toUInt8
  else if val ≤ 0x10000 then encodeU8 (0x80 ||| 2) ++ encodeU16 val.toUInt16
  else if val ≤ 0x1000000 then encodeU8 (0x80 ||| 4) ++ encodeU32 val.toUInt32
  else encodeU8 (0x80 ||| 8) ++ encodeU64 val

def decodePackedRest (c : UInt8) : Decoder UInt64 :=
  if c < 0x80 then pure c.toUInt64
  else if c &&& ~~~0x80 = 1 then (fun v => v.toUInt64) <$> decodeU8
  else if c &&& ~~~0x80 = 2 then (fun v => v.toUInt64) <$> decodeU16
  else if c &&& ~~~0x80 = 4 then (fun v => v.toUInt64) <$> decodeU32
  else if c &&& ~~~0x80 = 8 then decodeU64
  else fail

def decodePackedVal : Decoder UInt64 := decodeU8 >>= decodePackedRest

structure UTime where
  sec : UInt32
  nsec : UInt32
  deriving DecidableEq

def UTime.encode (t : UTime) : Bytes := encodeU32 t.sec ++ encodeU32 t.nsec

def UTime.decode : Decoder UTime := do
  let sec ← decodeU32
  let nsec ← decodeU32
  pure ⟨sec, nsec⟩

inductive PendingState
  | pendingModify
  | complete
  deriving DecidableEq

def PendingState.toByte : PendingState → UInt8
  | .pendingModify => 0
  | .complete => 1

/-- The cast to the enumeration, which says nothing of the bytes that are no enumerator. -/
def PendingState.ofByte (s : UInt8) : PendingState := if s = 0 then .pendingModify else .complete

structure BucketPendingInfo where
  state : PendingState
  timestamp : UTime
  op : UInt8
  deriving DecidableEq

namespace BucketPendingInfo

def encode (p : BucketPendingInfo) : Bytes → Bytes :=
  encodeStruct 2 2 (fun bl =>
    bl ++ encodeU8 p.state.toByte ++ p.timestamp.encode ++ encodeU8 p.op) 0

def decode : Decoder BucketPendingInfo :=
  decodeStructLegacy 2 2 2 0 fun _ => do
    let s ← decodeU8
    let timestamp ← UTime.decode
    let op ← decodeU8
    pure ⟨.ofByte s, timestamp, op⟩

end BucketPendingInfo

/-- A `multimap`: entries with the same name stand in the order they were inserted in. -/
@[ext]
structure PendingMap where
  entries : List (Bytes × BucketPendingInfo)
  ordered : SortedMap.Ordered entries

namespace PendingMap

def empty : PendingMap := ⟨[], List.Pairwise.nil⟩

def insert (m : PendingMap) (name : Bytes) (p : BucketPendingInfo) : PendingMap :=
  ⟨SortedMap.insertMulti name p m.entries, SortedMap.ordered_insertMulti m.ordered⟩

def encode (m : PendingMap) (bl : Bytes) : Bytes :=
  m.entries.foldl (fun bl e => e.2.encode (bl ++ encodeString e.1)) (bl ++ le 4 m.entries.length)

def decodeEntries : Nat → PendingMap → Decoder PendingMap
  | 0, m => pure m
  | n + 1, m => do
      let name ← decodeString
      let p ← BucketPendingInfo.decode
      decodeEntries n (m.insert name p)

def decode : Decoder PendingMap := do
  let n ← decodeU32
  decodeEntries n.toNat empty

end PendingMap

structure BucketDirEntryMeta where
  category : UInt8
  size : UInt64
  mtime : UTime
  etag : Bytes
  owner : Bytes
  ownerDisplayName : Bytes
  contentType : Bytes
  accountedSize : UInt64
  deriving DecidableEq

namespace BucketDirEntryMeta

def encode (m : BucketDirEntryMeta) : Bytes → Bytes :=
  encodeStruct 4 3
    (fun bl => bl ++ encodeU8 m.category ++ encodeU64 m.size ++ m.mtime.encode ++
      encodeString m.etag
      ++ encodeString m.owner ++ encodeString m.ownerDisplayName ++ encodeString m.contentType
      ++ encodeU64 m.accountedSize) 0

def decode (old : BucketDirEntryMeta) : Decoder BucketDirEntryMeta :=
  decodeStructLegacy 4 3 3 0 fun structV => do
    let category ← decodeU8
    let size ← decodeU64
    let mtime ← UTime.decode
    let etag ← decodeString
    let owner ← decodeString
    let ownerDisplayName ← decodeString
    let contentType ← if 2 ≤ structV then decodeString else pure old.contentType
    let accountedSize ← if 4 ≤ structV then decodeU64 else pure size
    pure ⟨category, size, mtime, etag, owner, ownerDisplayName, contentType, accountedSize⟩

end BucketDirEntryMeta

@[ext]
structure BucketEntryVer where
  pool : Int64
  epoch : UInt64
  deriving DecidableEq

namespace BucketEntryVer

def encode (v : BucketEntryVer) : Bytes → Bytes :=
  encodeStruct 1 1 (fun bl => bl ++ encodePackedVal v.pool.toUInt64 ++ encodePackedVal v.epoch) 0

def decode : Decoder BucketEntryVer :=
  decodeStruct 1 fun _ => do
    let pool ← decodePackedVal
    let epoch ← decodePackedVal
    pure ⟨pool.toInt64, epoch⟩

end BucketEntryVer

structure ObjKey where
  name : Bytes
  inst : Bytes
  deriving DecidableEq

@[ext]
structure BucketDirEntry where
  key : ObjKey
  ver : BucketEntryVer
  locator : Bytes
  exists_ : Bool
  meta_ : BucketDirEntryMeta
  pendingMap : PendingMap
  indexVer : UInt64
  tag : Bytes
  flags : UInt16
  versionedEpoch : UInt64

namespace BucketDirEntry

def encode (e : BucketDirEntry) : Bytes → Bytes :=
  encodeStruct 8 3
    (fun bl =>
      let bl := bl ++ encodeString e.key.name ++ encodeU64 e.ver.epoch ++ encodeBool e.exists_
      let bl := e.pendingMap.encode (e.meta_.encode bl)
      let bl := e.ver.encode (bl ++ encodeString e.locator)
      bl ++ encodePackedVal e.indexVer ++ encodeString e.tag ++ encodeString e.key.inst
        ++ encodeU16 e.flags ++ encodeU64 e.versionedEpoch) 0

def decode (old : BucketDirEntry) : Decoder BucketDirEntry :=
  decodeStructLegacy 6 3 3 0 fun structV => do
    let name ← decodeString
    let epoch ← decodeU64
    let exists_ ← decodeBool
    let meta_ ← old.meta_.decode
    let pendingMap ← PendingMap.decode
    let locator ← if 2 ≤ structV then decodeString else pure old.locator
    let ver ← if 4 ≤ structV then BucketEntryVer.decode else pure ⟨-1, epoch⟩
    let indexVer ← if 5 ≤ structV then decodePackedVal else pure old.indexVer
    let tag ← if 5 ≤ structV then decodeString else pure old.tag
    let inst ← if 6 ≤ structV then decodeString else pure old.key.inst
    let flags ← if 7 ≤ structV then decodeU16 else pure old.flags
    let versionedEpoch ← if 8 ≤ structV then decodeU64 else pure old.versionedEpoch
    pure ⟨⟨name, inst⟩, ver, locator, exists_, meta_, pendingMap, indexVer, tag, flags,
      versionedEpoch⟩

end BucketDirEntry

section Dump

open JsonFormatter

-- what `utime_t::gmtime` writes
variable (gmtime : UTime → Bytes)

def boolText (b : Bool) : Bytes := if b then ascii "true" else ascii "false"

def BucketPendingInfo.dump (p : BucketPendingInfo) : Dump :=
  .leaf (ascii "state") (.int p.state.toByte.toNat.toInt64) <|
  .leaf (ascii "timestamp") (.stream (gmtime p.timestamp)) <|
  .leaf (ascii "op") (.int p.op.toNat.toInt64) .done

def BucketDirEntryMeta.dump (m : BucketDirEntryMeta) : Dump :=
  .leaf (ascii "category") (.int m.category.toNat.toInt64) <|
  .leaf (ascii "size") (.unsigned m.size) <|
  .leaf (ascii "mtime") (.stream (gmtime m.mtime)) <|
  .leaf (ascii "etag") (.string m.etag) <|
  .leaf (ascii "owner") (.string m.owner) <|
  .leaf (ascii "owner_display_name") (.string m.ownerDisplayName) <|
  .leaf (ascii "content_type") (.string m.contentType) <|
  .leaf (ascii "accounted_size") (.unsigned m.accountedSize) .done

def BucketEntryVer.dump (v : BucketEntryVer) : Dump :=
  .leaf (ascii "pool") (.int v.pool) <| .leaf (ascii "epoch") (.unsigned v.epoch) .done

def dumpEntries : List (Bytes × BucketPendingInfo) → Dump
  | [] => .done
  | e :: entries =>
    .nested (ascii "entry") none false
      (.leaf (ascii "key") (.string e.1) <|
        .nested (ascii "val") none false (e.2.dump gmtime) .done)
      (dumpEntries entries)

def BucketDirEntry.dump (e : BucketDirEntry) : Dump :=
  .leaf (ascii "name") (.string e.key.name) <|
  .leaf (ascii "instance") (.string e.key.inst) <|
  .nested (ascii "ver") none false e.ver.dump <|
  .leaf (ascii "locator") (.string e.locator) <|
  .leaf (ascii "exists") (.string (boolText e.exists_)) <|
  .nested (ascii "meta") none false (e.meta_.dump gmtime) <|
  .leaf (ascii "tag") (.string e.tag) <|
  .leaf (ascii "flags") (.int e.flags.toNat.toInt64) <|
  .nested (ascii "pending_map") none true (dumpEntries gmtime e.pendingMap.entries) <|
  .leaf (ascii "versioned_epoch") (.unsigned e.versionedEpoch) .done

end Dump

end RadosGateway
