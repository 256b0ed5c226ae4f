import RadosGateway.Proof.Formatter
import RadosGateway.Proof.PackedVal

/-!
# Entries of the bucket index come back from their binary form

Field by field, what is written is read back, wherever the entry stands in a buffer list, but for
the three integers that are packed: `0x10000` comes back as zero. What the entry is dumped as is
never JSON: its first member is a string, and strings are not written. -/

namespace RadosGateway

open Text Codec Encoding List

theorem reads_decodeBool (v : Bool) : Reads decodeBool (encodeBool v) v := by
  have h := (reads_decodeU8 (if v then 1 else 0)).map fun w => decide (w ≠ 0)
  cases v <;> exact h

theorem reads_decodeString {s : Bytes} (hs : s.length < 2 ^ 32) :
    Reads decodeString (encodeString s) s := by
  have hlen : s.length.toUInt32.toNat = s.length := UInt32.toNat_ofNat_of_lt' hs
  have hcopy := reads_copy s
  rw [← hlen] at hcopy
  have h := (reads_decodeU32_of_lt hs).bind (f := fun len => copy len.toNat) hcopy
  rwa [encodeString, Nat.mod_eq_of_lt hs, take_length]

theorem readsFit_string {s : Bytes} (hs : s.length < 2 ^ 32) :
    ReadsFit decodeString (encodeString s) s := ReadsFit.of_reads (reads_decodeString hs)

theorem readsFit_u8 (v : UInt8) : ReadsFit decodeU8 (encodeU8 v) v :=
  ReadsFit.of_reads (reads_decodeU8 v)

theorem readsFit_u64 (v : UInt64) : ReadsFit decodeU64 (encodeU64 v) v :=
  ReadsFit.of_reads (reads_decodeU64 v)

theorem readsFit_pure {α : Type} (a : α) : ReadsFit (pure a) [] a :=
  ReadsFit.of_reads (reads_pure a)

theorem readsFit_time (t : UTime) : ReadsFit UTime.decode t.encode t := by
  have h := (reads_decodeU32 t.sec).bind
    (f := fun sec => decodeU32 >>= fun nsec => pure (UTime.mk sec nsec))
    ((reads_decodeU32 t.nsec).bind (reads_pure _))
  rw [append_nil] at h
  exact ReadsFit.of_reads h

namespace BucketPendingInfo

def body (p : BucketPendingInfo) : Bytes :=
  encodeU8 p.state.toByte ++ (p.timestamp.encode ++ (encodeU8 p.op ++ []))

def bytes (p : BucketPendingInfo) : Bytes := header 2 2 p.body.length ++ p.body

theorem encode_eq (p : BucketPendingInfo) (bl : Bytes) : p.encode bl = bl ++ p.bytes := by
  apply encodeStruct_eq
  intro bl
  simp [body]

theorem ofByte_toByte (s : PendingState) : PendingState.ofByte s.toByte = s := by
  cases s <;> rfl

/-- An entry is read in its packed form. -/
theorem readsFit_decode (p : BucketPendingInfo) : ReadsFit decode p.bytes p := by
  apply readsFit_decodeStructLegacy (by decide) (by decide) (by decide)
  apply (readsFit_u8 _).bind
  apply (readsFit_time _).bind
  apply (readsFit_u8 _).bind
  rw [ofByte_toByte]
  exact readsFit_pure _

end BucketPendingInfo

namespace PendingMap

def Fits (m : PendingMap) : Prop := m.entries.length < 2 ^ 32 ∧ ∀ e ∈ m.entries, e.1.length < 2 ^ 32

def entryBytes (e : Bytes × BucketPendingInfo) : Bytes := encodeString e.1 ++ e.2.bytes

def bytes (m : PendingMap) : Bytes := le 4 m.entries.length ++ m.entries.flatMap entryBytes

theorem encode_eq (m : PendingMap) (bl : Bytes) : m.encode bl = bl ++ m.bytes := by
  have hfold (entries : List (Bytes × BucketPendingInfo)) (bl : Bytes) :
      entries.foldl (fun bl e => e.2.encode (bl ++ encodeString e.1)) bl =
        bl ++ entries.flatMap entryBytes := by
    induction entries generalizing bl with
    | nil => rw [foldl_nil, flatMap_nil, append_nil]
    | cons e entries ih =>
      rw [foldl_cons, ih, BucketPendingInfo.encode_eq, flatMap_cons, entryBytes]
      simp only [append_assoc]
  rw [encode, hfold, bytes, append_assoc]

theorem entries_insert {m : PendingMap} {e : Bytes × BucketPendingInfo}
    {es : List (Bytes × BucketPendingInfo)} (h : SortedMap.Ordered (m.entries ++ e :: es)) :
    (m.insert e.1 e.2).entries = m.entries ++ [e] := by
  apply SortedMap.insertMulti_eq_append
  intro k hk
  unfold SortedMap.Ordered SortedMap.keys at h
  rw [map_append, map_cons] at h
  exact (pairwise_append.mp h).2.2 k hk e.1 mem_cons_self

/-- The pending operations come back in order. -/
theorem readsFit_decodeEntries (es : List (Bytes × BucketPendingInfo)) (m m' : PendingMap)
    (hm' : m'.entries = m.entries ++ es) (hes : ∀ e ∈ es, e.1.length < 2 ^ 32) :
    ReadsFit (decodeEntries es.length m) (es.flatMap entryBytes) m' := by
  induction es generalizing m with
  | nil =>
    have hsame : m' = m := by
      ext1
      rw [hm', append_nil]
    rw [hsame]
    exact readsFit_pure m
  | cons e es ih =>
    have hordered := m'.ordered
    rw [hm'] at hordered
    have hinsert := entries_insert hordered
    rw [flatMap_cons, entryBytes, append_assoc]
    apply (readsFit_string (hes e mem_cons_self)).bind
    apply (e.2.readsFit_decode).bind
    apply ih
    · rw [hinsert, append_assoc, singleton_append]
      exact hm'
    · intro e' he'
      exact hes e' (mem_cons_of_mem _ he')

theorem readsFit_decode (m : PendingMap) (hm : m.Fits) : ReadsFit decode m.bytes m := by
  have hlen : m.entries.length.toUInt32.toNat = m.entries.length := UInt32.toNat_ofNat_of_lt' hm.1
  apply (ReadsFit.of_reads (reads_decodeU32_of_lt hm.1)).bind
  rw [hlen]
  exact readsFit_decodeEntries m.entries empty m rfl hm.2

end PendingMap

namespace BucketDirEntryMeta

def Fits (m : BucketDirEntryMeta) : Prop :=
  m.etag.length < 2 ^ 32 ∧ m.owner.length < 2 ^ 32 ∧ m.ownerDisplayName.length < 2 ^ 32 ∧
    m.contentType.length < 2 ^ 32

def body (m : BucketDirEntryMeta) : Bytes :=
  encodeU8 m.category ++ (encodeU64 m.size ++ (m.mtime.encode ++ (encodeString m.etag
    ++ (encodeString m.owner ++ (encodeString m.ownerDisplayName ++ (encodeString m.contentType
      ++ (encodeU64 m.accountedSize ++ [])))))))

def bytes (m : BucketDirEntryMeta) : Bytes := header 4 3 m.body.length ++ m.body

theorem encode_eq (m : BucketDirEntryMeta) (bl : Bytes) : m.encode bl = bl ++ m.bytes := by
  apply encodeStruct_eq
  intro bl
  simp [body]

theorem readsFit_decode (m old : BucketDirEntryMeta) (hm : m.Fits) :
    ReadsFit old.decode m.bytes m := by
  obtain ⟨hetag, howner, hdisplay, hcontent⟩ := hm
  apply readsFit_decodeStructLegacy (by decide) (by decide) (by decide)
  apply (readsFit_u8 _).bind
  apply (readsFit_u64 _).bind
  apply (readsFit_time _).bind
  apply (readsFit_string hetag).bind
  apply (readsFit_string howner).bind
  apply (readsFit_string hdisplay).bind
  apply (readsFit_string hcontent).bind
  apply (readsFit_u64 _).bind
  exact readsFit_pure _

end BucketDirEntryMeta

namespace BucketEntryVer

def body (v : BucketEntryVer) : Bytes :=
  encodePackedVal v.pool.toUInt64 ++ (encodePackedVal v.epoch ++ [])

def bytes (v : BucketEntryVer) : Bytes := header 1 1 v.body.length ++ v.body

def packed (v : BucketEntryVer) : BucketEntryVer :=
  ⟨(packedValue v.pool.toUInt64).toInt64, packedValue v.epoch⟩

theorem encode_eq (v : BucketEntryVer) (bl : Bytes) : v.encode bl = bl ++ v.bytes := by
  apply encodeStruct_eq
  intro bl
  simp [body]

theorem readsFit_decode (v : BucketEntryVer) : ReadsFit decode v.bytes v.packed := by
  apply readsFit_decodeStruct (by decide)
  apply (ReadsFit.of_reads (reads_decodePackedVal _)).bind
  apply (ReadsFit.of_reads (reads_decodePackedVal _)).bind
  exact readsFit_pure _

end BucketEntryVer

theorem packedValue_eq_self_iff (v : UInt64) : packedValue v = v ↔ v ≠ 0x10000 := by
  unfold packedValue
  split_ifs with h
  · subst h
    decide
  · exact iff_of_true rfl h

namespace BucketDirEntry

def Fits (e : BucketDirEntry) : Prop :=
  e.key.name.length < 2 ^ 32 ∧ e.key.inst.length < 2 ^ 32 ∧ e.locator.length < 2 ^ 32 ∧
    e.tag.length < 2 ^ 32 ∧ e.meta_.Fits ∧ e.pendingMap.Fits

def body (e : BucketDirEntry) : Bytes :=
  encodeString e.key.name ++ (encodeU64 e.ver.epoch ++ (encodeBool e.exists_ ++ (e.meta_.bytes
    ++ (e.pendingMap.bytes ++ (encodeString e.locator ++ (e.ver.bytes ++ (encodePackedVal e.indexVer
      ++ (encodeString e.tag ++ (encodeString e.key.inst ++ (encodeU16 e.flags
        ++ (encodeU64 e.versionedEpoch ++ [])))))))))))

def bytes (e : BucketDirEntry) : Bytes := header 8 3 e.body.length ++ e.body

def packed (e : BucketDirEntry) : BucketDirEntry :=
  { e with
    ver := e.ver.packed,
    indexVer := packedValue e.indexVer }

variable (e : BucketDirEntry)

theorem encode_eq (bl : Bytes) : e.encode bl = bl ++ e.bytes := by
  apply encodeStruct_eq
  intro bl
  simp [body, BucketDirEntryMeta.encode_eq, PendingMap.encode_eq, BucketEntryVer.encode_eq]

theorem readsFit_decode (e old : BucketDirEntry) (he : e.Fits) :
    ReadsFit old.decode e.bytes e.packed := by
  obtain ⟨hname, hinst, hlocator, htag, hmeta, hpending⟩ := he
  apply readsFit_decodeStructLegacy (by decide) (by decide) (by decide)
  apply (readsFit_string hname).bind
  apply (readsFit_u64 _).bind
  apply (ReadsFit.of_reads (reads_decodeBool _)).bind
  apply (e.meta_.readsFit_decode old.meta_ hmeta).bind
  apply (e.pendingMap.readsFit_decode hpending).bind
  apply (readsFit_string hlocator).bind
  apply (e.ver.readsFit_decode).bind
  apply (ReadsFit.of_reads (reads_decodePackedVal _)).bind
  apply (readsFit_string htag).bind
  apply (readsFit_string hinst).bind
  apply (ReadsFit.of_reads (reads_decodeU16 _)).bind
  apply (readsFit_u64 _).bind
  exact readsFit_pure _

def Packable (e : BucketDirEntry) : Prop :=
  e.ver.pool.toUInt64 ≠ 0x10000 ∧ e.ver.epoch ≠ 0x10000 ∧ e.indexVer ≠ 0x10000

theorem packed_eq_self_iff : e.packed = e ↔ e.Packable := by
  have hpool : (packedValue e.ver.pool.toUInt64).toInt64 = e.ver.pool ↔
      packedValue e.ver.pool.toUInt64 = e.ver.pool.toUInt64 := by
    constructor
    · intro h
      exact congrArg Int64.toUInt64 h
    · intro h
      rw [h]
      exact Int64.toInt64_toUInt64 e.ver.pool
  simp only [BucketDirEntry.ext_iff, BucketEntryVer.ext_iff, packed, BucketEntryVer.packed, hpool,
    packedValue_eq_self_iff, Packable, and_true, true_and, and_assoc]

def PersistsBinary (e : BucketDirEntry) : Prop :=
  (∀ bl, e.encode bl = bl ++ e.encode []) ∧ ∀ old : BucketDirEntry,
    ReadsFit old.decode (e.encode []) e

/-- What is relied on of the reader of texts: it accepts nothing that is no JSON. -/
def StrictJson (read : Bytes → Option Json.Value) : Prop :=
  ∀ text, Json.parse text = none → read text = none

def PersistsJson (read : Bytes → Option Json.Value) (gmtime : UTime → Bytes)
    (decodeJson : Json.Value → Option BucketDirEntry) (pretty : Bool) (name : Bytes)
    (e : BucketDirEntry) : Prop :=
  ((JsonFormatter.write pretty (JsonFormatter.sectionCalls name none false (e.dump gmtime))).bind
    read).bind decodeJson = some e

/-- An entry comes back exactly if packing loses nothing. -/
theorem persistsBinary_iff (he : e.Fits) (hlength : e.bytes.length < 2 ^ 32) : e.PersistsBinary ↔
    e.Packable := by
  have hbytes : e.encode [] = e.bytes := e.encode_eq []
  rw [← packed_eq_self_iff, PersistsBinary, hbytes]
  constructor
  · rintro ⟨-, h⟩
    have hall : Encoding.Fits [] e.bytes [] := by
      rw [Encoding.Fits, nil_append, append_nil]
      exact hlength
    have hsame := (e.readsFit_decode e he [] [] hall).symm.trans (h e [] [] hall)
    exact (Prod.mk.inj (Option.some.inj hsame)).1
  · intro h
    refine ⟨e.encode_eq, fun old => ?_⟩
    have hreads := e.readsFit_decode old he
    rwa [h] at hreads

theorem parse_dump (gmtime : UTime → Bytes) (pretty : Bool) (name : Bytes) :
    (JsonFormatter.write pretty (JsonFormatter.sectionCalls name none false (e.dump gmtime))).bind
      Json.parse = none := by
  apply JsonFormatter.parse_write_string
  · intro c hc
    change c ∈ [110, 97, 109, 101] at hc
    simp only [mem_cons, not_mem_nil, or_false] at hc
    rcases hc with rfl | rfl | rfl | rfl <;> decide
  · exact Nat.succ_ne_zero _

def sampleEntry : BucketDirEntry :=
  { key := ⟨ascii "name", []⟩,
    ver := ⟨1, 0x10000⟩,
    locator := [],
    exists_ := true,
    meta_ := ⟨0, 0, ⟨0, 0⟩, [], [], [], [], 0⟩,
    pendingMap := .empty,
    indexVer := 0,
    tag := [],
    flags := 0,
    versionedEpoch := 0 }

end BucketDirEntry

end RadosGateway
