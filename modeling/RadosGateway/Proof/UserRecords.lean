import RadosGateway.Proof.WireRecord

/-!
# What comes back of the records of users and buckets

Current records come back if the creation time of a bucket entry fits a `__u32` and the soft
thresholds of a quota, which are not written, are those of a new one.
-/

namespace RadosGateway

open Text Codec Encoding

structure Versioned (α : Type) (latest : UInt8) where
  version : UInt8
  value : α
  version_le : version ≤ latest

def Versioned.current {α : Type} (latest : UInt8) (a : α) : Versioned α latest :=
  ⟨latest, a, UInt8.le_refl _⟩

namespace Encoding

theorem readsFit_int64 (v : Int64) : ReadsFit decodeInt64 (encodeInt64 v) v := by
  exact ReadsFit.of_reads ((reads_decodeU64 v.toUInt64).map fun v => v.toInt64)

theorem readsFit_int32 (v : Int32) : ReadsFit decodeInt32 (encodeInt32 v) v := by
  exact ReadsFit.of_reads ((reads_decodeU32 v.toUInt32).map fun v => v.toInt32)

theorem readsFit_u32 (v : UInt32) : ReadsFit decodeU32 (encodeU32 v) v :=
  ReadsFit.of_reads (reads_decodeU32 v)

theorem readsFit_bool (v : Bool) : ReadsFit decodeBool (encodeBool v) v :=
  ReadsFit.of_reads (reads_decodeBool v)

theorem length_decimal_le_iff {n k : Nat} (hk : 0 < k) : (decimal n).length ≤ k ↔ n < 10 ^ k := by
  refine ⟨fun h => ?_, length_decimal_le hk⟩
  by_cases hn : n = 0
  · rw [hn]
    exact Nat.pow_pos (by decide)
  · rw [decimal, if_neg hn, List.length_reverse, List.length_map] at h
    exact (Nat.digits_length_le_iff (by decide) n).mp h

end Encoding

namespace QuotaRecord

def wire (q : QuotaInfo) : Wire :=
  .struct 1 1 (.raw (encodeInt64 q.maxSizeKb) ++
    (.raw (encodeInt64 q.maxObjects) ++ (.raw (encodeBool q.enabled) ++ .raw [])))

theorem encode_eq (q : QuotaRecord) (bl : Bytes) : q.encode bl = bl ++ (wire q.info).bytes := by
  apply encodeStruct_eq
  simp

/-- A user of any version is read with the defaults of that version. -/
theorem gives_decode (old : QuotaRecord) (q : QuotaInfo) :
    Gives old.decode (wire q) ⟨q, old.soft⟩ := by
  apply gives_decodeStruct (by decide)
  apply (readsFit_int64 _).gives.bind
  apply (readsFit_int64 _).gives.bind
  apply (readsFit_bool _).gives.bind
  exact gives_pure _

theorem eq_of_soft {q : QuotaRecord} (h : q.soft = {}) : (⟨q.info, {}⟩ : QuotaRecord) = q := by
  rw [← h]

end QuotaRecord

namespace AccessKey

structure Fits (k : AccessKey) : Prop where
  id : k.id.length < 2 ^ 32
  key : k.key.length < 2 ^ 32
  subuser : k.subuser.length < 2 ^ 32

def wire (k : Versioned AccessKey 2) : Wire :=
  .legacy32 2 k.version
    (.raw (encodeString k.value.id) ++
      (.raw (encodeString k.value.key) ++ (.raw (encodeString k.value.subuser) ++ .raw [])))

theorem encode_eq (k : AccessKey) (bl : Bytes) :
    k.encode bl = bl ++ (wire (.current 2 k)).bytes := by
  apply encodeStruct_eq
  simp [Versioned.current]

theorem gives_decode {k : Versioned AccessKey 2} (hk : k.value.Fits) :
    Gives decode (wire k) k.value := by
  apply gives_legacy32 (by decide)
  apply (readsFit_string hk.id).gives.bind
  apply (readsFit_string hk.key).gives.bind
  apply (readsFit_string hk.subuser).gives.bind
  exact gives_pure _

end AccessKey

namespace SubUser

def wire (u : Versioned SubUser 2) : Wire :=
  .legacy32 2 u.version (.raw (encodeString u.value.name) ++
    (.raw (encodeU32 u.value.permMask) ++ .raw []))

theorem encode_eq (u : SubUser) (bl : Bytes) : u.encode bl = bl ++ (wire (.current 2 u)).bytes := by
  apply encodeStruct_eq
  simp [Versioned.current]

theorem gives_decode {u : Versioned SubUser 2} (hu : u.value.name.length < 2 ^ 32) :
    Gives decode (wire u) u.value := by
  apply gives_legacy32 (by decide)
  apply (readsFit_string hu).gives.bind
  apply (readsFit_u32 _).gives.bind
  exact gives_pure _

end SubUser

namespace UserCaps

def wire (caps : UserCaps) : Wire :=
  .struct 1 1 (.ofMap encodeString (fun v => .raw (encodeU32 v)) caps)

theorem encode_eq (caps : UserCaps) (bl : Bytes) :
    UserCaps.encode caps bl = bl ++ (wire caps).bytes := by
  apply encodeStruct_eq
  exact encodeMap_plain_eq _ _ caps

theorem gives_decode {caps : UserCaps} (hlen : caps.entries.length < 2 ^ 32)
    (hkeys : ∀ e ∈ caps.entries, e.1.length < 2 ^ 32) : Gives decode (wire caps) caps := by
  apply gives_decodeStruct (by decide)
  exact gives_decodeMap_plain hlen (fun e he => readsFit_string (hkeys e he)) fun e _ =>
    readsFit_u32 e.2

end UserCaps

structure StoredBucket where
  version : UInt8
  version_le : version ≤ 7
  name : Bytes := []
  dataPool : Bytes := []
  marker : Bytes := []
  numericId : UInt64 := 0
  bucketId : Bytes := []
  indexPool : Bytes := []
  dataExtraPool : Bytes := []

namespace StoredBucket

variable (s : StoredBucket)

def idBytes : Bytes := if s.version ≤ 3 then encodeU64 s.numericId else encodeString s.bucketId

def wire : Wire :=
  .legacy 3 s.version
    (.raw (encodeString s.name) ++ (.raw (encodeString s.dataPool)
      ++ (.since 2 s.version (.raw (encodeString s.marker)) ++ (.since 2 s.version (.raw s.idBytes)
      ++ (.since 5 s.version (.raw (encodeString s.indexPool))
      ++ (.since 7 s.version (.raw (encodeString s.dataExtraPool)) ++ .raw []))))))

def bucket (print : UInt64 → Bytes) : RgwBucket where
  name := s.name
  dataPool := s.dataPool
  dataExtraPool := field 7 s.version s.dataExtraPool []
  indexPool := field 5 s.version s.indexPool s.dataPool
  marker := field 2 s.version s.marker []
  bucketId := field 2 s.version (if s.version ≤ 3 then print s.numericId else s.bucketId) []

def value : RgwBucket := s.bucket fun id => decimal id.toNat

def Kept : Prop := 2 ≤ s.version → s.version ≤ 3 → s.numericId.toNat < 10 ^ 15

structure Fits : Prop where
  name : s.name.length < 2 ^ 32
  dataPool : s.dataPool.length < 2 ^ 32
  marker : s.marker.length < 2 ^ 32
  bucketId : s.bucketId.length < 2 ^ 32
  indexPool : s.indexPool.length < 2 ^ 32
  dataExtraPool : s.dataExtraPool.length < 2 ^ 32

variable {s}

theorem gives_id (hs : s.Fits) : Gives (RgwBucket.decodeId s.version) (.raw s.idBytes)
      (if s.version ≤ 3 then RgwBucket.idText s.numericId else s.bucketId) := by
  rw [RgwBucket.decodeId, idBytes]
  split_ifs
  · exact (readsFit_u64 _).gives.map _
  · exact (readsFit_string hs.bucketId).gives

theorem gives_decode (hs : s.Fits) :
    Gives (RgwBucket.decode {}) s.wire (s.bucket RgwBucket.idText) := by
  apply gives_legacy (by decide)
  apply (readsFit_string hs.name).gives.bind
  apply (readsFit_string hs.dataPool).gives.bind
  apply (gives_since fun _ => (readsFit_string hs.marker).gives).bind
  apply (gives_since fun _ => gives_id hs).bind
  apply (gives_since fun _ => (readsFit_string hs.indexPool).gives).bind
  apply (gives_since fun _ => (readsFit_string hs.dataExtraPool).gives).bind
  exact gives_pure _

theorem wide_wire (s : StoredBucket) : s.wire.wide = [] := by
  simp [wire]

theorem idText_eq_iff (id : UInt64) : RgwBucket.idText id = decimal id.toNat ↔
    id.toNat < 10 ^ 15 := by
  rw [RgwBucket.idText, List.take_eq_self_iff, length_decimal_le_iff (by decide)]

theorem bucket_eq_value_iff (s : StoredBucket) : s.bucket RgwBucket.idText = s.value ↔ s.Kept := by
  rw [value, bucket, bucket, RgwBucket.mk.injEq, Kept, ← idText_eq_iff]
  simp only [field, true_and]
  split_ifs with hv hnum
  · exact ⟨fun h _ _ => h, fun h => h hv hnum⟩
  · exact iff_of_true rfl fun _ h => absurd h hnum
  · exact iff_of_true rfl fun h => absurd h hv

end StoredBucket

structure StoredUser where
  version : UInt8
  version_le : version ≤ 16
  auid : UInt64 := 0
  accessKey : Bytes := []
  secretKey : Bytes := []
  displayName : Bytes := []
  userEmail : Bytes := []
  swiftName : Bytes := []
  swiftKey : Bytes := []
  userId : Bytes := []
  accessKeys : OrderedMap Bytes (Versioned AccessKey 2) := .empty
  subusers : OrderedMap Bytes (Versioned SubUser 2) := .empty
  suspended : UInt8 := 0
  swiftKeys : OrderedMap Bytes (Versioned AccessKey 2) := .empty
  maxBuckets : UInt32 := 0
  caps : UserCaps := .empty
  opMask : UInt32 := 0
  system : UInt8 := 0
  defaultPlacement : Bytes := []
  placementTags : List Bytes := []
  bucketQuota : QuotaInfo := {}
  tempUrlKeys : OrderedMap Int32 Bytes := .empty
  userQuota : QuotaInfo := {}

structure MapFits {V : Type} (P : V → Prop) (m : OrderedMap Bytes V) : Prop where
  length : m.entries.length < 2 ^ 32
  key : ∀ e ∈ m.entries, e.1.length < 2 ^ 32
  value : ∀ e ∈ m.entries, P e.2

namespace StoredUser

variable (s : StoredUser)

def body : Wire :=
  .since 2 s.version (.raw (encodeU64 s.auid)) ++ (.raw (encodeString s.accessKey)
    ++ (.raw (encodeString s.secretKey) ++ (.raw (encodeString s.displayName)
    ++ (.raw (encodeString s.userEmail) ++ (.since 3 s.version (.raw (encodeString s.swiftName))
    ++ (.since 4 s.version (.raw (encodeString s.swiftKey)) ++
      (.since 5 s.version (.raw (encodeString s.userId))
    ++ (.since 6 s.version (.ofMap encodeString AccessKey.wire s.accessKeys)
    ++ (.since 6 s.version (.ofMap encodeString SubUser.wire s.subusers)
    ++ (.since 7 s.version (.raw (encodeU8 s.suspended))
    ++ (.since 8 s.version (.ofMap encodeString AccessKey.wire s.swiftKeys)
    ++ (.since 10 s.version (.raw (encodeU32 s.maxBuckets)) ++
      (.since 11 s.version (UserCaps.wire s.caps)
    ++ (.since 12 s.version (.raw (encodeU32 s.opMask)) ++
      (.since 13 s.version (.raw (encodeU8 s.system))
    ++ (.since 13 s.version (.raw (encodeString s.defaultPlacement))
    ++ (.since 13 s.version (.raw (listBytes encodeString s.placementTags))
    ++ (.since 14 s.version (QuotaRecord.wire s.bucketQuota)
    ++ (.since 15 s.version (.ofMap encodeInt32 (fun v => .raw (encodeString v)) s.tempUrlKeys)
    ++ (.since 16 s.version (QuotaRecord.wire s.userQuota) ++ .raw []))))))))))))))))))))

def wire : Wire := .legacy32 9 s.version s.body

def user (swiftKeys : OrderedMap Bytes AccessKey) : UserInfo where
  auid := field 2 s.version s.auid authUidDefault
  userId := field 5 s.version s.userId s.accessKey
  displayName := s.displayName
  userEmail := s.userEmail
  accessKeys := field 6 s.version (s.accessKeys.map Versioned.value)
    (.singleton s.accessKey ⟨s.accessKey, s.secretKey, []⟩)
  swiftKeys := field 8 s.version (s.swiftKeys.map Versioned.value) swiftKeys
  subusers := field 6 s.version (s.subusers.map Versioned.value) .empty
  suspended := field 7 s.version s.suspended 0
  maxBuckets := field 10 s.version s.maxBuckets defaultMaxBuckets
  opMask := field 12 s.version s.opMask opTypeAll
  caps := field 11 s.version s.caps .empty
  system := field 13 s.version s.system 0
  defaultPlacement := field 13 s.version s.defaultPlacement []
  placementTags := field 13 s.version s.placementTags []
  bucketQuota := field 14 s.version ⟨s.bucketQuota, {}⟩ {}
  tempUrlKeys := field 15 s.version s.tempUrlKeys .empty
  userQuota := field 16 s.version ⟨s.userQuota, {}⟩ {}

def oldSwiftKeys : OrderedMap Bytes AccessKey :=
  if field 3 s.version s.swiftName [] = [] ∧ field 4 s.version s.swiftKey [] = [] then .empty
  else .singleton (field 3 s.version s.swiftName [])
    ⟨field 3 s.version s.swiftName [], field 4 s.version s.swiftKey [], []⟩

def value : UserInfo := s.user s.oldSwiftKeys

def Kept : Prop := s.version < 8 → (3 ≤ s.version → s.swiftName = []) ∧
    (4 ≤ s.version → s.swiftKey = [])

structure Fits : Prop where
  accessKey : s.accessKey.length < 2 ^ 32
  secretKey : s.secretKey.length < 2 ^ 32
  displayName : s.displayName.length < 2 ^ 32
  userEmail : s.userEmail.length < 2 ^ 32
  swiftName : s.swiftName.length < 2 ^ 32
  swiftKey : s.swiftKey.length < 2 ^ 32
  userId : s.userId.length < 2 ^ 32
  accessKeys : MapFits (fun k => k.value.Fits) s.accessKeys
  subusers : MapFits (fun u => u.value.name.length < 2 ^ 32) s.subusers
  swiftKeys : MapFits (fun k => k.value.Fits) s.swiftKeys
  caps : MapFits (fun _ => True) s.caps
  defaultPlacement : s.defaultPlacement.length < 2 ^ 32
  placementTags : s.placementTags.length < 2 ^ 32 ∧ ∀ tag ∈ s.placementTags, tag.length < 2 ^ 32
  tempUrlKeys : s.tempUrlKeys.entries.length < 2 ^ 32 ∧ ∀ e ∈ s.tempUrlKeys.entries,
    e.2.length < 2 ^ 32

variable {s}

theorem gives_keys {m : OrderedMap Bytes (Versioned AccessKey 2)}
    (hm : MapFits (fun k => k.value.Fits) m) :
    Gives (decodeMap decodeString AccessKey.decode) (.ofMap encodeString AccessKey.wire m)
    (m.map Versioned.value) :=
  gives_decodeMap hm.length (fun e he => readsFit_string (hm.key e he)) fun e he =>
    AccessKey.gives_decode (hm.value e he)

theorem field_oldKeys (s : StoredUser) (keys : OrderedMap Bytes AccessKey) : field 6 s.version keys
        (if s.version < 6 then OrderedMap.empty.insert s.accessKey ⟨s.accessKey, s.secretKey, []⟩
          else .empty)
      = field 6 s.version keys (.singleton s.accessKey ⟨s.accessKey, s.secretKey, []⟩) := by
  rw [field, field]
  split_ifs with hv hold
  · rfl
  · rfl
  · exact absurd (UInt8.not_le.mp hv) hold

theorem gives_decode (hs : s.Fits) : Gives (UserInfo.decode {}) s.wire (s.user .empty) := by
  apply gives_legacy32 (by decide)
  apply (gives_since fun _ => (readsFit_u64 _).gives).bind
  apply (readsFit_string hs.accessKey).gives.bind
  apply (readsFit_string hs.secretKey).gives.bind
  apply (readsFit_string hs.displayName).gives.bind
  apply (readsFit_string hs.userEmail).gives.bind
  apply (gives_since fun _ => (readsFit_string hs.swiftName).gives).bind
  apply (gives_since fun _ => (readsFit_string hs.swiftKey).gives).bind
  apply (gives_since fun _ => (readsFit_string hs.userId).gives).bind
  apply (gives_since fun _ => gives_keys hs.accessKeys).bind
  apply (gives_since fun _ =>
    gives_decodeMap hs.subusers.length (fun e he => readsFit_string (hs.subusers.key e he))
    fun e he => SubUser.gives_decode (hs.subusers.value e he)).bind
  apply (gives_since fun _ => (readsFit_u8 _).gives).bind
  apply (gives_since fun _ => gives_keys hs.swiftKeys).bind
  apply (gives_since fun _ => (readsFit_u32 _).gives).bind
  apply (gives_since fun _ => UserCaps.gives_decode hs.caps.length hs.caps.key).bind
  apply (gives_since fun _ => (readsFit_u32 _).gives).bind
  apply (gives_since fun _ => (readsFit_u8 _).gives).bind
  apply (gives_since fun _ => (readsFit_string hs.defaultPlacement).gives).bind
  apply (gives_since fun _ => (readsFit_decodeList hs.placementTags.1
    fun tag htag => readsFit_string (hs.placementTags.2 tag htag)).gives).bind
  apply (gives_since fun _ => QuotaRecord.gives_decode _ _).bind
  apply (gives_since fun _ => gives_decodeMap_plain hs.tempUrlKeys.1 (fun e _ => readsFit_int32 e.1)
    fun e he => readsFit_string (hs.tempUrlKeys.2 e he)).bind
  apply (gives_since fun _ => QuotaRecord.gives_decode _ _).bind
  rw [user, ← field_oldKeys]
  exact gives_pure _

theorem empty_ne_singleton (k : Bytes) (v : AccessKey) :
    OrderedMap.empty ≠ OrderedMap.singleton k v := by
  intro h
  cases congrArg OrderedMap.entries h

/-- A user is read as it was exactly if its version keeps all fields. -/
theorem user_eq_value_iff (s : StoredUser) : s.user .empty = s.value ↔ s.Kept := by
  have hkeys : s.user .empty = s.value ↔ field 8 s.version (s.swiftKeys.map Versioned.value) .empty
      = field 8 s.version (s.swiftKeys.map Versioned.value) s.oldSwiftKeys := by
    rw [value, user, user, UserInfo.mk.injEq]
    simp only [true_and, and_true]
  rw [hkeys, Kept]
  by_cases hv : 8 ≤ s.version
  · rw [field, field, if_pos hv, if_pos hv]
    exact iff_of_true rfl fun h => absurd h (UInt8.not_lt.mpr hv)
  · have hfields : (field 3 s.version s.swiftName [] = [] ∧ field 4 s.version s.swiftKey [] = []) ↔
        (3 ≤ s.version → s.swiftName = []) ∧ (4 ≤ s.version → s.swiftKey = []) := by
      rw [field, field, ite_eq_right_iff, ite_eq_right_iff]
    rw [field, field, if_neg hv, if_neg hv, oldSwiftKeys, imp_iff_right (UInt8.not_le.mp hv),
      ← hfields]
    split_ifs with hempty
    · exact iff_of_true rfl hempty
    · exact iff_of_false (empty_ne_singleton _ _) hempty

end StoredUser

structure StoredBucketInfo where
  version : UInt8
  version_le : version ≤ 12
  bucket : StoredBucket
  owner : Bytes := []
  flags : UInt32 := 0
  region : Bytes := []
  creationTime : UInt64 := 0
  placementRule : Bytes := []
  hasInstanceObj : Bool := false
  quota : QuotaInfo := {}
  numShards : UInt32 := 0
  bucketIndexShardHashType : UInt8 := 0
  requesterPays : Bool := false

namespace StoredBucketInfo

variable (s : StoredBucketInfo)

def wire : Wire :=
  .legacy32 4 s.version
    (s.bucket.wire ++ (.since 2 s.version (.raw (encodeString s.owner))
      ++ (.since 3 s.version (.raw (encodeU32 s.flags)) ++
        (.since 5 s.version (.raw (encodeString s.region))
      ++ (.since 6 s.version (.raw (encodeU64 s.creationTime))
      ++ (.since 7 s.version (.raw (encodeString s.placementRule))
      ++ (.since 8 s.version (.raw (encodeBool s.hasInstanceObj))
      ++ (.since 9 s.version (QuotaRecord.wire s.quota) ++
        (.since 10 s.version (.raw (encodeU32 s.numShards))
      ++ (.since 11 s.version (.raw (encodeU8 s.bucketIndexShardHashType))
      ++ (.since 12 s.version (.raw (encodeBool s.requesterPays)) ++ .raw [])))))))))))

def info (bucket : RgwBucket) : BucketInfo where
  bucket := bucket
  owner := field 2 s.version s.owner []
  flags := field 3 s.version s.flags 0
  region := field 5 s.version s.region []
  creationTime := field 6 s.version s.creationTime.toInt64 0
  placementRule := field 7 s.version s.placementRule []
  hasInstanceObj := field 8 s.version s.hasInstanceObj false
  quota := field 9 s.version ⟨s.quota, {}⟩ {}
  numShards := field 10 s.version s.numShards 0
  bucketIndexShardHashType := field 11 s.version s.bucketIndexShardHashType 0
  requesterPays := field 12 s.version s.requesterPays false

def value : BucketInfo := s.info s.bucket.value

structure Fits : Prop where
  bucket : s.bucket.Fits
  owner : s.owner.length < 2 ^ 32
  region : s.region.length < 2 ^ 32
  placementRule : s.placementRule.length < 2 ^ 32

variable {s}

theorem gives_decode (hs : s.Fits) :
    Gives (BucketInfo.decode {}) s.wire (s.info (s.bucket.bucket RgwBucket.idText)) := by
  apply gives_legacy32 (by decide)
  apply (StoredBucket.gives_decode hs.bucket).bind
  apply (gives_since fun _ => (readsFit_string hs.owner).gives).bind
  apply (gives_since fun _ => (readsFit_u32 _).gives).bind
  apply (gives_since fun _ => (readsFit_string hs.region).gives).bind
  apply (gives_since fun _ => (readsFit_u64 _).gives.map _).bind
  apply (gives_since fun _ => (readsFit_string hs.placementRule).gives).bind
  apply (gives_since fun _ => (readsFit_bool _).gives).bind
  apply (gives_since fun _ => QuotaRecord.gives_decode _ _).bind
  apply (gives_since fun _ => (readsFit_u32 _).gives).bind
  apply (gives_since fun _ => (readsFit_u8 _).gives).bind
  apply (gives_since fun _ => (readsFit_bool _).gives).bind
  exact gives_pure _

theorem info_eq_value_iff (s : StoredBucketInfo) :
    s.info (s.bucket.bucket RgwBucket.idText) = s.value ↔ s.bucket.Kept := by
  rw [← StoredBucket.bucket_eq_value_iff, value, info, info, BucketInfo.mk.injEq]
  simp only [and_true]

end StoredBucketInfo

structure StoredBucketEnt where
  version : UInt8
  version_le : version ≤ 5
  name : Bytes := []
  size : UInt64 := 0
  creationTime : UInt32 := 0
  count : UInt64 := 0
  bucket : StoredBucket
  sizeRounded : UInt64 := 0

namespace StoredBucketEnt

variable (s : StoredBucketEnt)

def wire : Wire :=
  .legacy 5 s.version
    (.raw (encodeString s.name) ++ (.raw (encodeU64 s.size) ++ (.raw (encodeU32 s.creationTime)
      ++ (.since 2 s.version (.raw (encodeU64 s.count)) ++ (.since 3 s.version s.bucket.wire
      ++ (.since 4 s.version (.raw (encodeU64 s.sizeRounded)) ++ .raw []))))))

def ent (bucket oldBucket : RgwBucket) : BucketEntRecord where
  bucket := field 3 s.version bucket oldBucket
  size := s.size
  sizeRounded := field 4 s.version s.sizeRounded s.size
  creationTime := s.creationTime.toUInt64.toInt64
  count := field 2 s.version s.count 0

def value : BucketEntRecord := s.ent s.bucket.value { name := s.name }

def Kept : Prop := (3 ≤ s.version → s.bucket.Kept) ∧ (s.version < 3 → s.name = [])

structure Fits : Prop where
  name : s.name.length < 2 ^ 32
  bucket : s.bucket.Fits

variable {s}

theorem gives_decode (hs : s.Fits) :
    Gives (BucketEntRecord.decode {}) s.wire (s.ent (s.bucket.bucket RgwBucket.idText) {}) := by
  apply gives_legacy (by decide)
  apply (readsFit_string hs.name).gives.bind
  apply (readsFit_u64 _).gives.bind
  apply (readsFit_u32 _).gives.bind
  apply (gives_since fun _ => (readsFit_u64 _).gives).bind
  apply (gives_since fun _ => StoredBucket.gives_decode hs.bucket).bind
  apply (gives_since fun _ => (readsFit_u64 _).gives).bind
  exact gives_pure _

theorem wide_wire (s : StoredBucketEnt) : s.wire.wide = [] := by
  simp [wire, Wire.wide_since s.bucket.wide_wire]

theorem ent_eq_value_iff (s : StoredBucketEnt) : s.ent (s.bucket.bucket RgwBucket.idText)
    {} = s.value ↔ s.Kept := by
  rw [value, ent, ent, BucketEntRecord.mk.injEq, Kept, ← StoredBucket.bucket_eq_value_iff]
  simp only [and_true, field]
  split_ifs with hv
  · exact ⟨fun h => ⟨fun _ => h, fun hold => absurd hold (UInt8.not_lt.mpr hv)⟩, fun h => h.1 hv⟩
  · have hname : ({} : RgwBucket) = { name := s.name } ↔ s.name = [] := by
      rw [RgwBucket.mk.injEq]
      simp only [and_true]
      exact eq_comm
    rw [hname]
    exact ⟨fun h => ⟨fun hnew => absurd hnew hv, fun _ => h⟩, fun h => h.2 (UInt8.not_le.mp hv)⟩

end StoredBucketEnt

theorem Versioned.map_current {α : Type} (m : OrderedMap Bytes α) :
    (m.map (Versioned.current 2)).map Versioned.value = m := by
  rw [OrderedMap.map_map]
  exact m.map_id

namespace RgwBucket

def stored (b : RgwBucket) : StoredBucket where
  version := 7
  version_le := UInt8.le_refl _
  name := b.name
  dataPool := b.dataPool
  marker := b.marker
  bucketId := b.bucketId
  indexPool := b.indexPool
  dataExtraPool := b.dataExtraPool

theorem encode_eq_stored (b : RgwBucket) (bl : Bytes) :
    b.encode bl = bl ++ b.stored.wire.bytes := by
  apply encodeStruct_eq
  simp [stored, Wire.since, StoredBucket.idBytes]

end RgwBucket

namespace UserInfo

def stored (u : UserInfo) : StoredUser where
  version := 16
  version_le := UInt8.le_refl _
  auid := u.auid
  accessKey := (firstKey u.accessKeys).id
  secretKey := (firstKey u.accessKeys).key
  displayName := u.displayName
  userEmail := u.userEmail
  swiftName := (firstKey u.swiftKeys).id
  swiftKey := (firstKey u.swiftKeys).key
  userId := u.userId
  accessKeys := u.accessKeys.map (.current 2)
  subusers := u.subusers.map (.current 2)
  suspended := u.suspended
  swiftKeys := u.swiftKeys.map (.current 2)
  maxBuckets := u.maxBuckets
  caps := u.caps
  opMask := u.opMask
  system := u.system
  defaultPlacement := u.defaultPlacement
  placementTags := u.placementTags
  bucketQuota := u.bucketQuota.info
  tempUrlKeys := u.tempUrlKeys
  userQuota := u.userQuota.info

variable (u : UserInfo)

theorem encode_eq (bl : Bytes) : u.encode bl = bl ++ u.stored.wire.bytes := by
  apply encodeStruct_eq
  simp only [encodeMap_eq AccessKey.encode_eq, encodeMap_eq SubUser.encode_eq, encodeMap_plain_eq,
    UserCaps.encode_eq,
    QuotaRecord.encode_eq, encodeList_eq]
  simp [stored, StoredUser.body, Wire.since]

theorem wide_stored : u.stored.wire.wide = [] := by
  have hkeys (m : OrderedMap Bytes AccessKey) :
      (Wire.ofMap encodeString AccessKey.wire (m.map (.current 2))).wide = [] :=
    Wire.wide_ofMap_eq_nil (List.forall_mem_map.mpr fun _ _ => rfl)
  have hsubusers : (Wire.ofMap encodeString SubUser.wire (u.subusers.map (.current 2))).wide = [] :=
    Wire.wide_ofMap_eq_nil (List.forall_mem_map.mpr fun _ _ => rfl)
  have hcaps : (UserCaps.wire u.caps).wide = [] := by
    rw [UserCaps.wire, Wire.wide_struct]
    apply Wire.wide_ofMap_eq_nil
    exact fun _ _ => rfl
  have htemp : (Wire.ofMap encodeInt32 (fun v => .raw (encodeString v)) u.tempUrlKeys).wide =
      [] := by
    apply Wire.wide_ofMap_eq_nil
    exact fun _ _ => rfl
  have hquota (q : QuotaInfo) : (QuotaRecord.wire q).wide = [] := rfl
  change u.stored.body.wide = []
  simp [stored, StoredUser.body, Wire.since, hkeys, hsubusers, hcaps, htemp, hquota]

theorem user_stored :
    u.stored.user .empty =
      { u with bucketQuota := ⟨u.bucketQuota.info, {}⟩, userQuota := ⟨u.userQuota.info, {}⟩ } := by
  simp [StoredUser.user, stored, field, Versioned.map_current]

theorem user_stored_eq_iff : u.stored.user .empty = u ↔ u.bucketQuota.soft = {} ∧
    u.userQuota.soft = {} := by
  rw [user_stored]
  constructor
  · intro h
    exact ⟨congrArg (fun u => u.bucketQuota.soft) h.symm,
      congrArg (fun u => u.userQuota.soft) h.symm⟩
  · rintro ⟨hbucket, huser⟩
    rw [QuotaRecord.eq_of_soft hbucket, QuotaRecord.eq_of_soft huser]

end UserInfo

namespace BucketInfo

def stored (b : BucketInfo) : StoredBucketInfo where
  version := 12
  version_le := UInt8.le_refl _
  bucket := b.bucket.stored
  owner := b.owner
  flags := b.flags
  region := b.region
  creationTime := b.creationTime.toUInt64
  placementRule := b.placementRule
  hasInstanceObj := b.hasInstanceObj
  quota := b.quota.info
  numShards := b.numShards
  bucketIndexShardHashType := b.bucketIndexShardHashType
  requesterPays := b.requesterPays

variable (b : BucketInfo)

theorem encode_eq (bl : Bytes) : b.encode bl = bl ++ b.stored.wire.bytes := by
  apply encodeStruct_eq
  simp only [RgwBucket.encode_eq_stored, QuotaRecord.encode_eq]
  simp [stored, Wire.since]

theorem wide_stored : b.stored.wire.wide = [] := by
  rfl

theorem info_stored_eq_iff : b.stored.info (b.bucket.stored.bucket RgwBucket.idText) = b ↔
    b.quota.soft = {} := by
  have hinfo : b.stored.info (b.bucket.stored.bucket RgwBucket.idText) =
      { b with quota := ⟨b.quota.info, {}⟩ } := rfl
  rw [hinfo]
  constructor
  · intro h
    exact congrArg (fun b => b.quota.soft) h.symm
  · intro h
    rw [QuotaRecord.eq_of_soft h]

end BucketInfo

namespace BucketEntRecord

def stored (e : BucketEntRecord) : StoredBucketEnt where
  version := 5
  version_le := UInt8.le_refl _
  size := e.size
  creationTime := e.creationTime.toUInt64.toUInt32
  count := e.count
  bucket := e.bucket.stored
  sizeRounded := e.sizeRounded

theorem encode_eq (e : BucketEntRecord) (bl : Bytes) : e.encode bl = bl ++ e.stored.wire.bytes := by
  apply encodeStruct_eq
  simp only [RgwBucket.encode_eq_stored]
  simp [stored, Wire.since]

def NarrowTime (e : BucketEntRecord) : Prop :=
  0 ≤ e.creationTime.toInt ∧ e.creationTime.toInt < 2 ^ 32

theorem narrow_eq_iff (t : Int64) : t.toUInt64.toUInt32.toUInt64.toInt64 = t ↔
    0 ≤ t.toInt ∧ t.toInt < 2 ^ 32 := by
  have hmk : t.toUInt64.toUInt32.toUInt64.toInt64 = t ↔ t.toUInt64.toUInt32.toUInt64 = t.toUInt64 :=
    ⟨congrArg Int64.toUInt64, congrArg UInt64.toInt64⟩
  have hlt := t.toUInt64.toNat_lt
  have htoInt : t.toInt = (t.toUInt64.toNat : Int).bmod (2 ^ 64) := BitVec.toInt_eq_toNat_bmod _
  rw [hmk, ← UInt64.toNat_inj, UInt32.toNat_toUInt64, UInt64.toNat_toUInt32, htoInt, Int.bmod]
  split_ifs
  · omega
  · omega

theorem ent_stored_eq_iff (e : BucketEntRecord) :
    e.stored.ent (e.bucket.stored.bucket RgwBucket.idText) {} = e ↔ e.NarrowTime := by
  have hent : e.stored.ent (e.bucket.stored.bucket RgwBucket.idText) {}
      = { e with creationTime := e.creationTime.toUInt64.toUInt32.toUInt64.toInt64 } := rfl
  rw [hent, NarrowTime, ← narrow_eq_iff]
  constructor
  · intro h
    exact congrArg creationTime h
  · intro h
    rw [h]

end BucketEntRecord

section ReadsBack

variable {α : Type} {d : Decoder α} {before rest : Bytes}

def ReadsBack (d : Decoder α) (bytes before rest : Bytes) (a : α) : Prop :=
  d ⟨before, bytes ++ rest⟩ = some (a, ⟨before ++ bytes, rest⟩)

theorem readsBack_iff {w : Wire} {read a : α} (h : Gives d w read)
    (hfits : Encoding.Fits before w.bytes rest) :
    ReadsBack d w.bytes before rest a ↔ w.Near rest.length ∧ read = a := by
  rw [ReadsBack, h _ _ hfits, Wire.got]
  split_ifs with hnear
  · rw [Option.map_some, Option.some_inj, Prod.mk.injEq, and_iff_left rfl, and_iff_right hnear]
  · exact iff_of_false (by rintro ⟨⟩) fun hand => hnear hand.1

def RoundTrips (encode : Bytes → Bytes) (d : Decoder α) (before rest : Bytes) (a : α) : Prop :=
  encode before = before ++ encode [] ∧ ReadsBack d (encode []) before rest a

theorem roundTrips_iff {encode : Bytes → Bytes} {w : Wire} {read a : α}
    (hencode : ∀ bl, encode bl = bl ++ w.bytes)
    (h : Gives d w read) (hwide : w.wide = []) (hfits : Encoding.Fits before (encode []) rest) :
    RoundTrips encode d before rest a ↔ read = a := by
  have hbytes : encode [] = w.bytes := hencode []
  rw [hbytes] at hfits
  rw [RoundTrips, hbytes, and_iff_right (hencode before), readsBack_iff h hfits,
    and_iff_right (Wire.near_of_wide_eq_nil hwide _)]

end ReadsBack

inductive Record
  | user (u : UserInfo)
  | bucketInfo (b : BucketInfo)
  | bucketEnt (e : BucketEntRecord)
  | storedBucket (s : StoredBucket)
  | storedUser (s : StoredUser)
  | storedBucketInfo (s : StoredBucketInfo)
  | storedBucketEnt (s : StoredBucketEnt)

namespace Record

def bytes : Record → Bytes
  | user u => u.encode []
  | bucketInfo b => b.encode []
  | bucketEnt e => e.encode []
  | storedBucket s => s.wire.bytes
  | storedUser s => s.wire.bytes
  | storedBucketInfo s => s.wire.bytes
  | storedBucketEnt s => s.wire.bytes

def Fits : Record → Prop
  | user u => u.stored.Fits
  | bucketInfo b => b.stored.Fits
  | bucketEnt e => e.stored.Fits
  | storedBucket s => s.Fits
  | storedUser s => s.Fits
  | storedBucketInfo s => s.Fits
  | storedBucketEnt s => s.Fits

def ComesBack (before rest : Bytes) : Record → Prop
  | user u => RoundTrips u.encode (UserInfo.decode {}) before rest u
  | bucketInfo b => RoundTrips b.encode (BucketInfo.decode {}) before rest b
  | bucketEnt e => RoundTrips e.encode (BucketEntRecord.decode {}) before rest e
  | storedBucket s => ReadsBack (RgwBucket.decode {}) s.wire.bytes before rest s.value
  | storedUser s => ReadsBack (UserInfo.decode {}) s.wire.bytes before rest s.value
  | storedBucketInfo s => ReadsBack (BucketInfo.decode {}) s.wire.bytes before rest s.value
  | storedBucketEnt s => ReadsBack (BucketEntRecord.decode {}) s.wire.bytes before rest s.value

def Kept (n : Nat) : Record → Prop
  | user u => u.bucketQuota.soft = {} ∧ u.userQuota.soft = {}
  | bucketInfo b => b.quota.soft = {}
  | bucketEnt e => e.NarrowTime
  | storedBucket s => s.Kept
  | storedUser s => s.wire.Near n ∧ s.Kept
  | storedBucketInfo s => s.wire.Near n ∧ s.bucket.Kept
  | storedBucketEnt s => s.Kept

/-- **Records.** Exactly the records that keep to this come back whole. -/
theorem comesBack_iff_kept (r : Record) (hr : r.Fits) (before rest : Bytes)
    (hfits : Encoding.Fits before r.bytes rest) : r.ComesBack before rest ↔ r.Kept rest.length := by
  cases r with
  | user u =>
    rw [Kept, ← UserInfo.user_stored_eq_iff]
    exact roundTrips_iff u.encode_eq (StoredUser.gives_decode hr) u.wide_stored hfits
  | bucketInfo b =>
    rw [Kept, ← BucketInfo.info_stored_eq_iff]
    exact roundTrips_iff b.encode_eq (StoredBucketInfo.gives_decode hr) b.wide_stored hfits
  | bucketEnt e =>
    rw [Kept, ← BucketEntRecord.ent_stored_eq_iff]
    exact roundTrips_iff e.encode_eq (StoredBucketEnt.gives_decode hr) e.stored.wide_wire hfits
  | storedBucket s =>
    rw [ComesBack, readsBack_iff (StoredBucket.gives_decode hr) hfits,
      StoredBucket.bucket_eq_value_iff]
    exact and_iff_right (Wire.near_of_wide_eq_nil s.wide_wire _)
  | storedUser s =>
    rw [ComesBack, readsBack_iff (StoredUser.gives_decode hr) hfits, StoredUser.user_eq_value_iff]
    rfl
  | storedBucketInfo s =>
    rw [ComesBack, readsBack_iff (StoredBucketInfo.gives_decode hr) hfits,
      StoredBucketInfo.info_eq_value_iff]
    rfl
  | storedBucketEnt s =>
    rw [ComesBack, readsBack_iff (StoredBucketEnt.gives_decode hr) hfits,
      StoredBucketEnt.ent_eq_value_iff]
    exact and_iff_right (Wire.near_of_wide_eq_nil s.wide_wire _)

/-- A bucket with a number of fifteen digits. -/
theorem numbered_bucket_comesBack :
    (storedBucket { version := 3, version_le := by decide, numericId := 999999999999999 }).ComesBack
      [1] [2] :=
  (comesBack_iff_kept _ (by constructor <;> decide) [1] [2] (by rw [Encoding.Fits]; decide)).mpr (by
    intro _ _
    decide)

/-- A sixteenth digit is cut off, and a time of 2106 comes back as one of 1970. -/
theorem records_cut :
    ¬ (storedBucket { version := 3, version_le := by decide, numericId := 1000000000000000
      }).ComesBack [] [] ∧
      ¬ (bucketEnt { creationTime := 4294967296 }).ComesBack [] [] := by
  constructor
  · intro h
    have hid := congrArg (fun r => r.map fun p => p.1.bucketId) h
    revert hid
    decide
  · intro h
    have htime := congrArg (fun r => r.map fun p => p.1.creationTime) h.2
    revert htime
    decide

end Record

end RadosGateway
