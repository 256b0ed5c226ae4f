import RadosGateway.Base.OrderedMap
import RadosGateway.ObjectCodec
import RadosGateway.QuotaCache

/-!
# The records of users and buckets

`RGWUserInfo`, `RGWBucketInfo` and `RGWBucketEnt` are structures with a version in front. A reader
has its own values for fields that an older record lacks. The oldest records of some types have a
`__u32` for the version and nothing else in front. -/

namespace RadosGateway

open Text Codec Encoding

namespace Encoding

def encodeInt32 (v : Int32) : Bytes := encodeU32 v.toUInt32

def decodeInt32 : Decoder Int32 := (fun v => v.toInt32) <$> decodeU32

def encodeInt64 (v : Int64) : Bytes := encodeU64 v.toUInt64

def decodeInt64 : Decoder Int64 := (fun v => v.toInt64) <$> decodeU64

section Containers

variable {κ V α : Type} [LT κ]

def encodeMap (encodeKey : κ → Bytes) (encodeValue : V → Bytes → Bytes) (m : OrderedMap κ V)
    (bl : Bytes) : Bytes :=
  m.entries.foldl (fun bl e => encodeValue e.2 (bl ++ encodeKey e.1)) (bl ++ le 4 m.entries.length)

/-- A `list` is counted while it is written. -/
def encodeList (encode : α → Bytes) (l : List α) (bl : Bytes) : Bytes :=
  if l ≠ [] then
    let pos := bl.length
    let bl := l.foldl (fun bl a => bl ++ encode a) (bl ++ le 4 0)
    copyIn bl pos (le 4 l.length)
  else bl ++ le 4 l.length

def decodeItems (decode : Decoder α) : Nat → List α → Decoder (List α)
  | 0, l => pure l
  | n + 1, l => do
      let a ← decode
      decodeItems decode n (l ++ [a])

def decodeList (decode : Decoder α) : Decoder (List α) := do
  let n ← decodeU32
  decodeItems decode n.toNat []

variable [DecidableLT κ] [DecidableEq κ] [Trans (· < · : κ → κ → Prop) (· < ·) (· < ·)]
  [Std.Trichotomous (· < · : κ → κ → Prop)]

/-- The values are ones that are read whole, whatever was there. -/
def decodeEntries (decodeKey : Decoder κ) (decodeValue : Decoder V) : Nat → OrderedMap κ V →
    Decoder (OrderedMap κ V)
  | 0, m => pure m
  | n + 1, m => do
      let k ← decodeKey
      let v ← decodeValue
      decodeEntries decodeKey decodeValue n (m.insert k v)

def decodeMap (decodeKey : Decoder κ) (decodeValue : Decoder V) : Decoder (OrderedMap κ V) := do
  let n ← decodeU32
  decodeEntries decodeKey decodeValue n.toNat OrderedMap.empty

end Containers

end Encoding

structure QuotaRecord where
  info : QuotaInfo := {}
  soft : SoftThresholds := {}
  deriving DecidableEq

namespace QuotaRecord

def encode (q : QuotaRecord) : Bytes → Bytes :=
  encodeStruct 1 1
    (fun bl => bl ++ encodeInt64 q.info.maxSizeKb ++ encodeInt64 q.info.maxObjects ++
      encodeBool q.info.enabled) 0

def decode (old : QuotaRecord) : Decoder QuotaRecord :=
  decodeStruct 1 fun _ => do
    let maxSizeKb ← decodeInt64
    let maxObjects ← decodeInt64
    let enabled ← decodeBool
    pure ⟨⟨maxSizeKb, maxObjects, enabled⟩, old.soft⟩

end QuotaRecord

structure AccessKey where
  id : Bytes := []
  key : Bytes := []
  subuser : Bytes := []
  deriving DecidableEq

namespace AccessKey

def encode (k : AccessKey) : Bytes → Bytes :=
  encodeStruct 2 2 (fun bl =>
    bl ++ encodeString k.id ++ encodeString k.key ++ encodeString k.subuser) 0

def decode : Decoder AccessKey :=
  decodeStructLegacy 2 2 2 3 fun _ => do
    let id ← decodeString
    let key ← decodeString
    let subuser ← decodeString
    pure ⟨id, key, subuser⟩

end AccessKey

structure SubUser where
  name : Bytes := []
  permMask : UInt32 := 0
  deriving DecidableEq

namespace SubUser

def encode (u : SubUser) : Bytes → Bytes :=
  encodeStruct 2 2 (fun bl => bl ++ encodeString u.name ++ encodeU32 u.permMask) 0

def decode : Decoder SubUser :=
  decodeStructLegacy 2 2 2 3 fun _ => do
    let name ← decodeString
    let permMask ← decodeU32
    pure ⟨name, permMask⟩

end SubUser

abbrev UserCaps := OrderedMap Bytes UInt32

namespace UserCaps

def encode (caps : UserCaps) : Bytes → Bytes :=
  encodeStruct 1 1 (encodeMap encodeString (fun v bl => bl ++ encodeU32 v) caps) 0

def decode : Decoder UserCaps := decodeStruct 1 fun _ => decodeMap decodeString decodeU32

end UserCaps

def authUidDefault : UInt64 := 0xffffffffffffffff

def defaultMaxBuckets : UInt32 := 1000

def opTypeAll : UInt32 := 7

structure UserInfo where
  auid : UInt64 := 0
  userId : Bytes := []
  displayName : Bytes := []
  userEmail : Bytes := []
  accessKeys : OrderedMap Bytes AccessKey := .empty
  swiftKeys : OrderedMap Bytes AccessKey := .empty
  subusers : OrderedMap Bytes SubUser := .empty
  suspended : UInt8 := 0
  maxBuckets : UInt32 := defaultMaxBuckets
  opMask : UInt32 := opTypeAll
  caps : UserCaps := .empty
  system : UInt8 := 0
  defaultPlacement : Bytes := []
  placementTags : List Bytes := []
  bucketQuota : QuotaRecord := {}
  tempUrlKeys : OrderedMap Int32 Bytes := .empty
  userQuota : QuotaRecord := {}

namespace UserInfo

def firstKey (keys : OrderedMap Bytes AccessKey) : AccessKey :=
  (keys.entries.head?.map Prod.snd).getD {}

def encode (u : UserInfo) : Bytes → Bytes :=
  encodeStruct 16 9
    (fun bl =>
      let bl := bl ++ encodeU64 u.auid ++ encodeString (firstKey u.accessKeys).id
        ++ encodeString (firstKey u.accessKeys).key ++ encodeString u.displayName ++
          encodeString u.userEmail
        ++ encodeString (firstKey u.swiftKeys).id ++ encodeString (firstKey u.swiftKeys).key
        ++ encodeString u.userId
      let bl := encodeMap encodeString AccessKey.encode u.accessKeys bl
      let bl := encodeMap encodeString SubUser.encode u.subusers bl
      let bl := bl ++ encodeU8 u.suspended
      let bl := encodeMap encodeString AccessKey.encode u.swiftKeys bl
      let bl := bl ++ encodeU32 u.maxBuckets
      let bl := UserCaps.encode u.caps bl
      let bl := bl ++ encodeU32 u.opMask ++ encodeU8 u.system ++ encodeString u.defaultPlacement
      let bl := encodeList encodeString u.placementTags bl
      let bl := u.bucketQuota.encode bl
      let bl := encodeMap encodeInt32 (fun s bl => bl ++ encodeString s) u.tempUrlKeys bl
      u.userQuota.encode bl) 0

def decode (old : UserInfo) : Decoder UserInfo :=
  decodeStructLegacy 16 9 9 3 fun structV => do
    let auid ← since 2 structV decodeU64 authUidDefault
    let accessKey ← decodeString
    let secretKey ← decodeString
    let oldKeys :=
      if structV < 6 then old.accessKeys.insert accessKey ⟨accessKey, secretKey, []⟩
        else old.accessKeys
    let displayName ← decodeString
    let userEmail ← decodeString
    -- the swift key is read, and not used
    let _ ← since 3 structV decodeString []
    let _ ← since 4 structV decodeString []
    let userId ← since 5 structV decodeString accessKey
    let accessKeys ← since 6 structV (decodeMap decodeString AccessKey.decode) oldKeys
    let subusers ← since 6 structV (decodeMap decodeString SubUser.decode) old.subusers
    let suspended ← since 7 structV decodeU8 0
    let swiftKeys ← since 8 structV (decodeMap decodeString AccessKey.decode) old.swiftKeys
    let maxBuckets ← since 10 structV decodeU32 defaultMaxBuckets
    let caps ← since 11 structV UserCaps.decode old.caps
    let opMask ← since 12 structV decodeU32 opTypeAll
    let system ← since 13 structV decodeU8 0
    let defaultPlacement ← since 13 structV decodeString old.defaultPlacement
    let placementTags ← since 13 structV (decodeList decodeString) old.placementTags
    let bucketQuota ← since 14 structV old.bucketQuota.decode old.bucketQuota
    let tempUrlKeys ← since 15 structV (decodeMap decodeInt32 decodeString) old.tempUrlKeys
    let userQuota ← since 16 structV old.userQuota.decode old.userQuota
    pure ⟨auid, userId, displayName, userEmail, accessKeys, swiftKeys, subusers, suspended,
      maxBuckets, opMask, caps,
      system, defaultPlacement, placementTags, bucketQuota, tempUrlKeys, userQuota⟩

end UserInfo

/-- `RGWBucketInfo`, without the versions that are kept at run time only. -/
structure BucketInfo where
  bucket : RgwBucket := {}
  owner : Bytes := []
  flags : UInt32 := 0
  region : Bytes := []
  creationTime : Int64 := 0
  placementRule : Bytes := []
  hasInstanceObj : Bool := false
  quota : QuotaRecord := {}
  numShards : UInt32 := 0
  bucketIndexShardHashType : UInt8 := 0
  requesterPays : Bool := false
  deriving DecidableEq

namespace BucketInfo

def encode (b : BucketInfo) : Bytes → Bytes :=
  encodeStruct 12 4
    (fun bl =>
      let bl := b.bucket.encode bl ++ encodeString b.owner ++ encodeU32 b.flags ++
        encodeString b.region
        ++ encodeU64 b.creationTime.toUInt64 ++ encodeString b.placementRule ++
          encodeBool b.hasInstanceObj
      b.quota.encode bl ++ encodeU32 b.numShards ++ encodeU8 b.bucketIndexShardHashType
        ++ encodeBool b.requesterPays) 0

def decode (old : BucketInfo) : Decoder BucketInfo :=
  decodeStructLegacy 9 4 4 3 fun structV => do
    let bucket ← old.bucket.decode
    let owner ← since 2 structV decodeString old.owner
    let flags ← since 3 structV decodeU32 old.flags
    let region ← since 5 structV decodeString old.region
    let creationTime ← since 6 structV ((fun ct => ct.toInt64) <$> decodeU64) old.creationTime
    let placementRule ← since 7 structV decodeString old.placementRule
    let hasInstanceObj ← since 8 structV decodeBool old.hasInstanceObj
    let quota ← since 9 structV old.quota.decode old.quota
    let numShards ← since 10 structV decodeU32 old.numShards
    let bucketIndexShardHashType ← since 11 structV decodeU8 old.bucketIndexShardHashType
    let requesterPays ← since 12 structV decodeBool old.requesterPays
    pure ⟨bucket, owner, flags, region, creationTime, placementRule, hasInstanceObj, quota,
      numShards,
      bucketIndexShardHashType, requesterPays⟩

end BucketInfo

structure BucketEntRecord where
  bucket : RgwBucket := {}
  size : UInt64 := 0
  sizeRounded : UInt64 := 0
  creationTime : Int64 := 0
  count : UInt64 := 0
  deriving DecidableEq

namespace BucketEntRecord

def encode (e : BucketEntRecord) : Bytes → Bytes :=
  encodeStruct 5 5
    (fun bl =>
      let mt := e.creationTime.toUInt64.toUInt32
      let bl := bl ++ encodeString [] ++ encodeU64 e.size ++ encodeU32 mt ++ encodeU64 e.count
      e.bucket.encode bl ++ encodeU64 e.sizeRounded) 0

def decode (old : BucketEntRecord) : Decoder BucketEntRecord :=
  decodeStructLegacy 5 5 5 0 fun structV => do
    -- the name of the bucket once stood here, and is not used
    let _ ← decodeString
    let s ← decodeU64
    let mt ← decodeU32
    let count ← since 2 structV decodeU64 old.count
    let bucket ← since 3 structV old.bucket.decode old.bucket
    let sizeRounded ← since 4 structV decodeU64 s
    pure ⟨bucket, s, sizeRounded, mt.toUInt64.toInt64, count⟩

end BucketEntRecord

end RadosGateway
