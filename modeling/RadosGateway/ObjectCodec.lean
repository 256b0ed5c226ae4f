import RadosGateway.ListObjects
import RadosGateway.ObjectLocator

/-!
# Objects in the index and on the wire

`from_index_key` takes apart what `get_index_key` makes of an object: a name in a namespace stands
behind two underscores with the namespace between them, a plain name that starts with an underscore
has one more in front. On the wire an object is a structure of version 5 with its bucket inside. -/

namespace RadosGateway

open Text Codec Encoding

namespace RgwObj

/-- `init_ns`: a namespace that is refused leaves the old one. -/
def initNs (o n : Bytes) (obj : RgwObj) : RgwObj := setObj o ((setNs n obj).getD obj)

/-- `from_index_key`, without the bucket. -/
def fromIndexKey (key : ObjKey) (obj : RgwObj) : RgwObj :=
  let obj :=
    if key.name.head? ≠ some 95 then setObj key.name obj
    else if key.name[1]? = some 95 then setObj (key.name.drop 1) obj
    else match find 95 key.name 1 with
      | none => setObj key.name obj
      | some pos => initNs (key.name.drop (pos + 1)) ((key.name.drop 1).take (pos - 1)) obj
  (setInstance key.inst obj).getD obj

end RgwObj

/-- A field that is there since a version; before, its value is another one. -/
def Encoding.since {α : Type} (version structV : UInt8) (d : Decoder α) (a : α) : Decoder α :=
  if version ≤ structV then d else pure a

structure RgwBucket where
  name : Bytes := []
  dataPool : Bytes := []
  dataExtraPool : Bytes := []
  indexPool : Bytes := []
  marker : Bytes := []
  bucketId : Bytes := []
  deriving DecidableEq

namespace RgwBucket

def encode (b : RgwBucket) : Bytes → Bytes :=
  encodeStruct 7 3
    (fun bl => bl ++ encodeString b.name ++ encodeString b.dataPool ++ encodeString b.marker
      ++ encodeString b.bucketId ++ encodeString b.indexPool ++ encodeString b.dataExtraPool) 0

/-- `snprintf` with `%llu` into 16 bytes. -/
def idText (id : UInt64) : Bytes := (decimal id.toNat).take 15

def decodeId (structV : UInt8) : Decoder Bytes := if structV ≤ 3 then idText <$> decodeU64
    else decodeString

def decode (old : RgwBucket) : Decoder RgwBucket :=
  decodeStructLegacy 7 3 3 0 fun structV => do
    let name ← decodeString
    let dataPool ← decodeString
    let marker ← since 2 structV decodeString old.marker
    let bucketId ← since 2 structV (decodeId structV) old.bucketId
    let indexPool ← since 5 structV decodeString dataPool
    let dataExtraPool ← since 7 structV decodeString old.dataExtraPool
    pure ⟨name, dataPool, dataExtraPool, indexPool, marker, bucketId⟩

end RgwBucket

structure WireObj where
  bucket : RgwBucket := {}
  located : LocatedObj := {}
  deriving DecidableEq

namespace WireObj

def encode (o : WireObj) : Bytes → Bytes :=
  encodeStruct 5 3
    (fun bl =>
      let obj := o.located.obj
      let bl := bl ++ encodeString o.bucket.name ++ encodeString o.located.loc ++
        encodeString obj.ns
        ++ encodeString obj.object
      let bl := o.bucket.encode bl ++ encodeString obj.inst
      if obj.ns ≠ [] ∨ obj.inst ≠ [] then bl ++ encodeString obj.origObj else bl) 0

/-- The name in the object string, for an object without a namespace and an instance. -/
def plainName (object : Bytes) : Bytes := if object.head? ≠ some 95 then object else object.drop 1

def decodeOrigObj (structV : UInt8) (ns inst object : Bytes) : Decoder Bytes :=
  if ns = [] ∧ inst = [] then pure (plainName object)
  else if 5 ≤ structV then decodeString
  else match RgwObj.find 95 object 1 with
    | none => fail
    | some pos => pure (object.drop pos)

def decode (old : WireObj) : Decoder WireObj :=
  decodeStructLegacy 5 3 3 0 fun structV => do
    let name ← decodeString
    let loc ← decodeString
    let ns ← decodeString
    let object ← decodeString
    let bucket ← since 2 structV (RgwBucket.decode { old.bucket with name := name })
      { old.bucket with name := name }
    let inst ← since 4 structV decodeString old.located.obj.inst
    let origObj ← decodeOrigObj structV ns inst object
    pure ⟨bucket, ⟨⟨origObj, object, ns, inst⟩, loc⟩⟩

end WireObj

end RadosGateway
