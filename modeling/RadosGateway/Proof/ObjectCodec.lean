import RadosGateway.ObjectCodec
import RadosGateway.Proof.DirEntry
import RadosGateway.Proof.ListObjects
import RadosGateway.Proof.ObjectLocator

/-!
# What comes back of an object

From its index key an object comes back with its parts, into an object that has no namespace of its
own, as long as its namespace has no zero byte: `get_index_key_name` prints it with `%s`. Objects
with the same index key then have the same parts. -/

namespace RadosGateway

open Text Codec Encoding List Option

namespace RgwObj

def SameParts (a b : RgwObj) : Prop := a.ns = b.ns ∧ a.inst = b.inst ∧ a.origObj = b.origObj

def Restored (obj target : RgwObj) : Prop :=
  SameParts (fromIndexKey (ListObjects.indexKey obj) target) obj

structure Restorable (obj target : RgwObj) : Prop where
  zero : 0 ∉ obj.ns
  ns : obj.ns = [] → target.ns = []
  inst : obj.inst.head? = some 95 → target.inst = obj.inst

theorem setInstance_parts (i : Bytes) (obj : RgwObj) : ((setInstance i obj).getD obj).ns = obj.ns ∧
      ((setInstance i obj).getD obj).inst = (if i.head? = some 95 then obj.inst else i) ∧
      ((setInstance i obj).getD obj).origObj = obj.origObj := by
  rw [setInstance]
  split_ifs
  · exact ⟨rfl, rfl, rfl⟩
  · obtain ⟨hns, hinst⟩ := setObj_fields obj.origObj { obj with inst := i }
    exact ⟨hns, hinst, ListObjects.origObj_setObj _ _⟩

theorem sameParts_setInstance_iff {obj target : RgwObj} (h : target.origObj = obj.origObj) :
    SameParts ((setInstance obj.inst target).getD target) obj ↔
      target.ns = obj.ns ∧ (obj.inst.head? = some 95 → target.inst = obj.inst) := by
  obtain ⟨hns, hinst, horig⟩ := setInstance_parts obj.inst target
  rw [SameParts, hns, hinst, horig, and_iff_left h]
  refine and_congr_right fun _ => ?_
  split_ifs with hhead
  · exact ⟨fun heq _ => heq, fun heq => heq hhead⟩
  · exact iff_of_true rfl fun hhead' => absurd hhead' hhead

theorem setObj_parts (o : Bytes) (obj : RgwObj) :
    (setObj o obj).ns = obj.ns ∧ (setObj o obj).inst = obj.inst ∧ (setObj o obj).origObj = o :=
  ⟨(setObj_fields o obj).1, (setObj_fields o obj).2, ListObjects.origObj_setObj o obj⟩

variable (target : RgwObj)

theorem restored_iff_of_ns_eq_nil {obj : RgwObj} (hns : obj.ns = []) :
    Restored obj target ↔ target.ns = [] ∧ (obj.inst.head? = some 95 → target.inst = obj.inst) := by
  have hparts := setObj_parts obj.origObj target
  have hfrom : fromIndexKey (ListObjects.indexKey obj) target =
      (setInstance obj.inst (setObj obj.origObj target)).getD (setObj obj.origObj target) := by
    rw [fromIndexKey, ListObjects.indexKey, ListObjects.indexKeyName, if_pos hns]
    cases horig : obj.origObj with
    | nil => rfl
    | cons c name =>
      by_cases hc : c = 95
      · subst hc
        rfl
      · have hhead : (c :: name).head? ≠ some 95 := fun h => hc (some.inj h)
        rw [if_neg hhead, if_pos hhead]
  rw [Restored, hfrom, sameParts_setInstance_iff hparts.2.2, hparts.1, hparts.2.1, hns]

theorem notMem_cstr {c : UInt8} {s : Bytes} (h : c ∉ s) : c ∉ cstr s :=
  fun hmem => h ((takeWhile_sublist _).subset hmem)

/-- A key with a field before its name. -/
theorem fromIndexKey_field {field : Bytes} (hfield : field ≠ []) (h : 95 ∉ field)
    (name inst : Bytes)
    (target : RgwObj) : fromIndexKey ⟨95 :: (field ++ 95 :: name), inst⟩ target =
      (setInstance inst (setObj name (setObj target.origObj { target with ns := field }))).getD
        (setObj name (setObj target.origObj { target with ns := field })) := by
  have hfind : find 95 (95 :: (field ++ 95 :: name)) 1 = some (field.length + 1) := by
    rw [find_one_cons, find_append h]
    rfl
  obtain ⟨b, rest, rfl⟩ := exists_cons_of_ne_nil hfield
  have hb : b ≠ 95 := fun heq => h (heq ▸ mem_cons_self)
  have hhead : (b :: rest).head? ≠ some 95 := fun heq => hb (some.inj heq)
  have hsecond : (95 :: (b :: rest ++ 95 :: name))[1]? ≠ some 95 := fun heq => hb (some.inj heq)
  have hname : (95 :: (b :: rest ++ 95 :: name)).drop ((b :: rest).length + 1 + 1) = name := by
    rw [drop_succ_cons, drop_append, drop_of_length_le (Nat.le_succ _), nil_append,
      Nat.add_sub_cancel_left, drop_succ_cons, drop_zero]
  have hns : ((95 :: (b :: rest ++ 95 :: name)).drop 1).take ((b :: rest).length + 1 - 1) =
      b :: rest := by
    rw [drop_succ_cons, drop_zero, Nat.add_sub_cancel, take_left]
  rw [fromIndexKey]
  rw [if_neg (by simp), if_neg hsecond, hfind]
  dsimp only
  rw [hname, hns, initNs, setNs, if_neg hhead, getD_some]

/-- A name in a namespace is restored exactly if there is no zero byte in the namespace and an
instance that begins with an underscore was there before. -/
theorem restored_iff_of_ns_ne_nil {obj : RgwObj} (hns : obj.ns ≠ []) (hclean : 95 ∉ obj.ns) :
    Restored obj target ↔ 0 ∉ obj.ns ∧ (obj.inst.head? = some 95 → target.inst = obj.inst) := by
  have hkey : ListObjects.indexKey obj = ⟨95 :: (cstr obj.ns ++ 95 :: obj.origObj), obj.inst⟩ := by
    rw [ListObjects.indexKey, ListObjects.indexKeyName, if_neg hns]
    simp [ascii]
  by_cases hempty : cstr obj.ns = []
  · have hzero : 0 ∈ obj.ns := by
      by_contra hzero
      exact hns ((cstr_eq_self hzero).symm.trans hempty)
    refine iff_of_false (fun hrestored => ?_) fun h => h.1 hzero
    have horig := hrestored.2.2
    rw [hkey, hempty] at horig
    change ((setInstance obj.inst (setObj (95 :: obj.origObj) target)).getD
      (setObj (95 :: obj.origObj) target)).origObj = obj.origObj at horig
    rw [(setInstance_parts _ _).2.2, (setObj_parts _ _).2.2] at horig
    exact cons_ne_self _ _ horig
  · have hparts :=
      setObj_parts obj.origObj (setObj target.origObj { target with ns := cstr obj.ns })
    have hfields := setObj_parts target.origObj { target with ns := cstr obj.ns }
    have hcstr : cstr obj.ns = obj.ns ↔ 0 ∉ obj.ns :=
      ⟨fun heq => heq ▸ zero_notMem_cstr obj.ns, cstr_eq_self⟩
    rw [Restored, hkey, fromIndexKey_field hempty (notMem_cstr hclean),
      sameParts_setInstance_iff hparts.2.2,
      hparts.1, hfields.1, hparts.2.1, hfields.2.1, hcstr]

/-- An object comes back from its index key exactly if the target has nothing in its way. -/
theorem restored_iff {obj : RgwObj} (hclean : 95 ∉ obj.ns) : Restored obj target ↔
    Restorable obj target := by
  by_cases hns : obj.ns = []
  · rw [restored_iff_of_ns_eq_nil target hns]
    constructor
    · rintro ⟨htarget, hinst⟩
      exact ⟨by rw [hns]; exact not_mem_nil, fun _ => htarget, hinst⟩
    · rintro ⟨-, htarget, hinst⟩
      exact ⟨htarget hns, hinst⟩
  · rw [restored_iff_of_ns_ne_nil target hns hclean]
    constructor
    · rintro ⟨hzero, hinst⟩
      exact ⟨hzero, fun hnil => absurd hnil hns, hinst⟩
    · rintro ⟨hzero, -, hinst⟩
      exact ⟨hzero, hinst⟩

/-- **Index keys.** Objects come back from their index keys, and have different ones if they differ,
exactly if their namespaces have no zero byte and the object they are read into keeps nothing of its
own. -/
theorem index_keys_restore_iff (obj obj' target : RgwObj) (hclean : 95 ∉ obj.ns)
    (hclean' : 95 ∉ obj'.ns) :
    (Restored obj target ∧ Restored obj' target ∧
      (ListObjects.indexKey obj = ListObjects.indexKey obj' → SameParts obj obj')) ↔
      Restorable obj target ∧ Restorable obj' target := by
  rw [restored_iff target hclean, restored_iff target hclean']
  refine ⟨fun h => ⟨h.1, h.2.1⟩, fun ⟨h, h'⟩ => ⟨h, h', fun heq => ?_⟩⟩
  -- Both are what the one key is taken apart into.
  have hback := (restored_iff target hclean).mpr h
  have hback' := (restored_iff target hclean').mpr h'
  rw [Restored, heq] at hback
  exact ⟨hback.1.symm.trans hback'.1, hback.2.1.symm.trans hback'.2.1,
    hback.2.2.symm.trans hback'.2.2⟩

/-- A part of an upload and a plain name, read into new objects. -/
theorem index_keys_of_part :
    Restored ⟨ascii "_n", ascii "_mp__n", ascii "mp", []⟩ {} ∧
    Restored ⟨ascii "_n", ascii "__n", [], []⟩ {} := by
  have h := (index_keys_restore_iff ⟨ascii "_n", ascii "_mp__n", ascii "mp", []⟩ ⟨ascii "_n",
    ascii "__n", [], []⟩ {}
    (by decide) (by decide)).mpr ⟨⟨by decide, nofun, nofun⟩, ⟨by decide, fun _ => rfl, nofun⟩⟩
  exact ⟨h.1, h.2.1⟩

/-- Behind a zero byte the namespace is not printed. -/
theorem index_key_cut_at_zero :
    ¬ Restored ⟨ascii "n", 95 :: 97 :: 0 :: 98 :: ascii "_n", [97, 0, 98], []⟩ {} ∧
      ListObjects.indexKey ⟨ascii "n", 95 :: 97 :: 0 :: 98 :: ascii "_n", [97, 0, 98], []⟩ =
        ListObjects.indexKey ⟨ascii "n", ascii "_a_n", ascii "a", []⟩ := by
  refine ⟨fun h => ?_, by decide⟩
  have hns := h.1
  revert hns
  decide

end RgwObj

namespace Encoding

def sinceBytes (version structV : UInt8) (bytes : Bytes) : Bytes := if version ≤ structV then bytes
    else []

theorem readsFit_since {α : Type} {version structV : UInt8} {d : Decoder α} {bytes : Bytes}
    {a old : α}
    (h : version ≤ structV → ReadsFit d bytes a) (hold : structV < version → a = old) :
    ReadsFit (since version structV d old) (sinceBytes version structV bytes) a := by
  rw [since, sinceBytes]
  by_cases hv : version ≤ structV
  · rw [if_pos hv, if_pos hv]
    exact h hv
  · rw [if_neg hv, if_neg hv, hold (UInt8.not_le.mp hv)]
    exact readsFit_pure _

end Encoding

namespace RgwBucket

structure Fits (b : RgwBucket) : Prop where
  name : b.name.length < 2 ^ 32
  dataPool : b.dataPool.length < 2 ^ 32
  dataExtraPool : b.dataExtraPool.length < 2 ^ 32
  indexPool : b.indexPool.length < 2 ^ 32
  marker : b.marker.length < 2 ^ 32
  bucketId : b.bucketId.length < 2 ^ 32

def body (b : RgwBucket) : Bytes :=
  encodeString b.name ++
    (encodeString b.dataPool ++ (encodeString b.marker ++ (encodeString b.bucketId
    ++ (encodeString b.indexPool ++ (encodeString b.dataExtraPool ++ [])))))

def bytes (b : RgwBucket) : Bytes := header 7 3 b.body.length ++ b.body

theorem encode_eq (b : RgwBucket) (bl : Bytes) : b.encode bl = bl ++ b.bytes := by
  apply encodeStruct_eq
  simp [body]

theorem readsFit_decode {b : RgwBucket} (hb : b.Fits) (old : RgwBucket) :
    ReadsFit old.decode b.bytes b := by
  apply readsFit_decodeStructLegacy (by decide) (by decide) (by decide)
  apply (readsFit_string hb.name).bind
  apply (readsFit_string hb.dataPool).bind
  apply (readsFit_string hb.marker).bind
  apply (readsFit_string hb.bucketId).bind
  apply (readsFit_string hb.indexPool).bind
  apply (readsFit_string hb.dataExtraPool).bind
  exact readsFit_pure _

end RgwBucket

namespace WireObj

structure Fits (o : WireObj) : Prop where
  bucket : o.bucket.Fits
  loc : o.located.loc.length < 2 ^ 32
  ns : o.located.obj.ns.length < 2 ^ 32
  object : o.located.obj.object.length < 2 ^ 32
  inst : o.located.obj.inst.length < 2 ^ 32
  origObj : o.located.obj.origObj.length < 2 ^ 32

def nameBytes (obj : RgwObj) : Bytes := if obj.ns ≠ [] ∨ obj.inst ≠ [] then encodeString obj.origObj
    else []

def body (o : WireObj) : Bytes :=
  encodeString o.bucket.name ++ (encodeString o.located.loc ++ (encodeString o.located.obj.ns
    ++ (encodeString o.located.obj.object ++ (o.bucket.bytes ++ (encodeString o.located.obj.inst
      ++ (nameBytes o.located.obj ++ []))))))

def bytes (o : WireObj) : Bytes := header 5 3 o.body.length ++ o.body

theorem encode_eq (o : WireObj) (bl : Bytes) : o.encode bl = bl ++ o.bytes := by
  apply encodeStruct_eq
  intro bl
  dsimp only
  rw [body, nameBytes, RgwBucket.encode_eq]
  split_ifs
  · simp
  · simp

theorem plainName_mangle (name : Bytes) : plainName (RgwObj.mangle [] [] name) = name := by
  change plainName (if name.head? ≠ some 95 then name else 95 :: name) = name
  rw [plainName]
  by_cases hname : name.head? ≠ some 95
  · rw [if_pos hname, if_pos hname]
  · rw [if_neg hname, if_neg (by simp)]
    rfl

theorem readsFit_decodeOrigObj {obj : RgwObj}
    (hobject : obj.object = RgwObj.mangle obj.ns obj.inst obj.origObj)
    (hlength : obj.origObj.length < 2 ^ 32) :
    ReadsFit (decodeOrigObj 5 obj.ns obj.inst obj.object) (nameBytes obj) obj.origObj := by
  rw [decodeOrigObj, nameBytes]
  by_cases hplain : obj.ns = [] ∧ obj.inst = []
  · rw [if_pos hplain, if_neg (by simp [hplain.1, hplain.2]), hobject, hplain.1, hplain.2,
      plainName_mangle]
    exact readsFit_pure _
  · have hwritten : obj.ns ≠ [] ∨ obj.inst ≠ [] := by
      rw [← not_and_or]
      exact hplain
    rw [if_neg hplain, if_pos hwritten]
    exact readsFit_string hlength

theorem readsFit_decode {o : WireObj} (ho : o.located.Consistent) (hfits : o.Fits) (old : WireObj) :
    ReadsFit old.decode o.bytes o := by
  apply readsFit_decodeStructLegacy (by decide) (by decide) (by decide)
  apply (readsFit_string hfits.bucket.name).bind
  apply (readsFit_string hfits.loc).bind
  apply (readsFit_string hfits.ns).bind
  apply (readsFit_string hfits.object).bind
  apply (RgwBucket.readsFit_decode hfits.bucket _).bind
  apply (readsFit_string hfits.inst).bind
  apply (readsFit_decodeOrigObj ho.object hfits.origObj).bind
  exact readsFit_pure _

def Persists (o : WireObj) : Prop :=
  (∀ bl, o.encode bl = bl ++ o.encode []) ∧ ∀ old : WireObj, ReadsFit old.decode (o.encode []) o

theorem persists {o : WireObj} (ho : o.located.Consistent) (hfits : o.Fits) : o.Persists := by
  have hbytes : o.encode [] = o.bytes := o.encode_eq []
  rw [Persists, hbytes]
  exact ⟨o.encode_eq, fun old => readsFit_decode ho hfits old⟩

end WireObj

structure OldObj where
  version : UInt8
  bucketName : Bytes
  loc : Bytes
  ns : Bytes
  inst : Bytes
  origObj : Bytes
  bucketBytes : Bytes
  old : version < 5
  inst_old : version < 4 → inst = []
  bucket_reads : 2 ≤ version → ∃ b, ReadsFit (RgwBucket.decode { name := bucketName }) bucketBytes b

namespace OldObj

variable (r : OldObj)

def object : Bytes := RgwObj.mangle r.ns r.inst r.origObj

def body : Bytes :=
  encodeString r.bucketName ++ (encodeString r.loc ++ (encodeString r.ns ++ (encodeString r.object
    ++ (sinceBytes 2 r.version r.bucketBytes ++
      (sinceBytes 4 r.version (encodeString r.inst) ++ [])))))

def bytes : Bytes :=
  if 3 ≤ r.version then header r.version 3 r.body.length ++ r.body else encodeU8 r.version ++ r.body

structure Fits : Prop where
  bucketName : r.bucketName.length < 2 ^ 32
  loc : r.loc.length < 2 ^ 32
  ns : r.ns.length < 2 ^ 32
  object : r.object.length < 2 ^ 32
  inst : r.inst.length < 2 ^ 32
  bytes : r.bytes.length < 2 ^ 32

def ComesBack : Prop :=
  ∃ o : WireObj, ReadsFit (WireObj.decode {}) r.bytes o ∧ o.located.obj.ns = r.ns ∧
    RgwObj.mangle o.located.obj.ns o.located.obj.inst o.located.obj.origObj = r.object

def Plain : Prop := r.ns = [] ∧ (r.inst = [] ∨ r.inst = ascii "null" ∧ r.origObj.head? = some 95)

def readName : Option Bytes :=
  if r.ns = [] ∧ r.inst = [] then some (WireObj.plainName r.object)
  else (RgwObj.find 95 r.object 1).map fun pos => r.object.drop pos

variable {r}

theorem givesFit_origObj {α : Type} (f : Bytes → α) :
    GivesFit (WireObj.decodeOrigObj r.version r.ns r.inst r.object >>= fun name => pure (f name)) []
      (r.readName.map f) := by
  have hold : ¬ 5 ≤ r.version := UInt8.not_le.mpr r.old
  rw [WireObj.decodeOrigObj, readName, if_neg hold]
  by_cases hplain : r.ns = [] ∧ r.inst = []
  · rw [if_pos hplain, if_pos hplain]
    exact (readsFit_pure _).bind_gives (readsFit_pure _)
  · rw [if_neg hplain, if_neg hplain]
    cases RgwObj.find 95 r.object 1 with
    | none =>
      intro before rest _
      rfl
    | some pos => exact (readsFit_pure _).bind_gives (readsFit_pure _)

theorem exists_readsFit_bucket (r : OldObj) :
    ∃ b, ReadsFit (since 2 r.version (RgwBucket.decode { name := r.bucketName })
      { name := r.bucketName })
      (sinceBytes 2 r.version r.bucketBytes) b := by
  by_cases hv : 2 ≤ r.version
  · obtain ⟨b, hb⟩ := r.bucket_reads hv
    exact ⟨b, readsFit_since (fun _ => hb) fun hold => absurd hold (UInt8.not_lt.mpr hv)⟩
  · exact ⟨_, readsFit_since (fun h => absurd h hv) fun _ => rfl⟩

theorem exists_givesFit (hr : r.Fits) : ∃ b, GivesFit (WireObj.decode {}) r.bytes
      (r.readName.map fun name => ⟨b, ⟨⟨name, r.object, r.ns, r.inst⟩, r.loc⟩⟩) := by
  obtain ⟨b, hb⟩ := r.exists_readsFit_bucket
  refine ⟨b, ?_⟩
  rw [bytes, WireObj.decode]
  split_ifs with hv
  · apply givesFit_decodeStructLegacy hv hv (by decide)
    apply (readsFit_string hr.bucketName).bind_gives
    apply (readsFit_string hr.loc).bind_gives
    apply (readsFit_string hr.ns).bind_gives
    apply (readsFit_string hr.object).bind_gives
    apply hb.bind_gives
    apply (readsFit_since (fun _ => readsFit_string hr.inst) r.inst_old).bind_gives
    exact givesFit_origObj _
  · have hbare : r.version.toNat < 3 := Nat.lt_of_not_le hv
    apply givesFit_decodeStructLegacy_bare hbare hbare
    apply (readsFit_string hr.bucketName).bind_gives
    apply (readsFit_string hr.loc).bind_gives
    apply (readsFit_string hr.ns).bind_gives
    apply (readsFit_string hr.object).bind_gives
    apply hb.bind_gives
    apply (readsFit_since (fun _ => readsFit_string hr.inst) r.inst_old).bind_gives
    exact givesFit_origObj _

theorem not_mangled_of_field {field name : Bytes} {n : Nat}
    (hfind : RgwObj.find 95 (95 :: (field ++ 95 :: name)) 1 = some n) :
    (95 :: (field ++ 95 :: name)).drop n ≠ name := by
  rw [RgwObj.find_one_cons, RgwObj.find, drop_zero, if_pos (by simp)] at hfind
  obtain ⟨i, hi, rfl⟩ := map_eq_some_iff.mp hfind
  have hle : i ≤ field.length := by
    rw [← some.inj hi, zero_add]
    by_cases hmem : 95 ∈ field
    · rw [idxOf_append_of_mem hmem]
      exact idxOf_le_length
    · rw [idxOf_append_of_notMem hmem, idxOf_cons_self, add_zero]
  intro heq
  have hlength := congrArg List.length heq
  rw [drop_succ_cons, length_drop, length_append, length_cons] at hlength
  omega

theorem readName_null_iff {name : Bytes} :
    (∃ read, (RgwObj.find 95 (RgwObj.mangle [] (ascii "null") name) 1).map
        (fun pos => (RgwObj.mangle [] (ascii "null") name).drop pos) = some read ∧
      RgwObj.mangle [] (ascii "null") read = RgwObj.mangle [] (ascii "null") name) ↔
        name.head? = some 95 := by
  have hmangle : ∀ s : Bytes, RgwObj.mangle [] (ascii "null") s = if s.head? ≠ some 95 then s
    else 95 :: s :=
    fun s => rfl
  constructor
  · rintro ⟨read, hread, hback⟩
    by_contra hname
    obtain ⟨pos, hpos, rfl⟩ := map_eq_some_iff.mp hread
    rw [hmangle name, if_pos hname] at hpos hback
    rw [RgwObj.find] at hpos
    split_ifs at hpos with hmem
    cases hpos
    -- What is read starts with an underscore.
    have hhead : (name.drop (1 + (name.drop 1).idxOf 95)).head? = some 95 := by
      rw [← drop_drop, head?_drop, getElem?_idxOf hmem]
    rw [hmangle, if_neg (not_not.mpr hhead)] at hback
    rw [← hback] at hname
    exact hname rfl
  · intro hname
    refine ⟨name, ?_, rfl⟩
    cases name with
    | nil => cases hname
    | cons c s =>
      obtain rfl : c = 95 := some.inj hname
      rfl

/-- The name is read back from an old object string exactly if it is plain. -/
theorem readName_iff (r : OldObj) :
    (∃ name, r.readName = some name ∧ RgwObj.mangle r.ns r.inst name = r.object) ↔ r.Plain := by
  rw [readName, Plain]
  by_cases hplain : r.ns = [] ∧ r.inst = []
  · refine iff_of_true ⟨r.origObj, ?_, rfl⟩ ⟨hplain.1, .inl hplain.2⟩
    rw [if_pos hplain, object, hplain.1, hplain.2, WireObj.plainName_mangle]
  rw [if_neg hplain]
  by_cases hnull : r.ns = [] ∧ r.inst = ascii "null"
  · rw [object, hnull.1, hnull.2, readName_null_iff]
    refine ⟨fun h => ⟨rfl, .inr ⟨rfl, h⟩⟩, ?_⟩
    rintro ⟨-, h | h⟩
    · cases h
    · exact h.2
  · have hencodes : ¬ (r.ns.isEmpty && !RgwObj.encodesInstance r.inst) = true := by
      intro h
      rw [Bool.and_eq_true, List.isEmpty_iff, RgwObj.encodesInstance] at h
      obtain ⟨hns, hinst⟩ := h
      by_cases hempty : r.inst = []
      · exact hplain ⟨hns, hempty⟩
      · refine hnull ⟨hns, ?_⟩
        simpa [hempty] using hinst
    obtain ⟨field, hfield⟩ : ∃ field, ∀ name,
      RgwObj.mangle r.ns r.inst name = 95 :: (field ++ 95 :: name) :=
      ⟨_, fun name => by rw [RgwObj.mangle, if_neg hencodes]⟩
    refine iff_of_false ?_ ?_
    · rintro ⟨name, hname, hmangle⟩
      obtain ⟨pos, hpos, rfl⟩ := map_eq_some_iff.mp hname
      rw [object, hfield] at hpos hmangle
      rw [hfield, cons_inj_right, append_cancel_left_eq, cons_inj_right] at hmangle
      exact not_mangled_of_field hpos hmangle
    · rintro ⟨hns, hinst | hinst⟩
      · exact hplain ⟨hns, hinst⟩
      · exact hnull ⟨hns, hinst.1⟩

/-- An object in an older form comes back exactly if it is plain. -/
theorem comesBack_iff (hr : r.Fits) : r.ComesBack ↔ r.Plain := by
  obtain ⟨b, hgives⟩ := exists_givesFit hr
  have hfits : Encoding.Fits [] r.bytes [] := by
    rw [Encoding.Fits, nil_append, append_nil]
    exact hr.bytes
  rw [← readName_iff]
  constructor
  · rintro ⟨o, hreads, -, hmangle⟩
    have hgot := (hreads _ _ hfits).symm.trans (hgives _ _ hfits)
    cases hname : r.readName with
    | none =>
      rw [hname] at hgot
      cases hgot
    | some name =>
      rw [hname] at hgot
      obtain rfl := (Prod.mk.inj (some.inj hgot)).1
      exact ⟨name, rfl, hmangle⟩
  · rintro ⟨name, hname, hmangle⟩
    rw [hname] at hgives
    exact ⟨_, hgives, rfl, hmangle⟩

end OldObj

/-- **Wire format.** An object of the current version comes back whole, and one of an older version
with a name that makes its object string again exactly if it is a plain one. -/
theorem wire_iff (o : WireObj) (ho : o.located.Consistent) (hfits : o.Fits) (r : OldObj)
    (hr : r.Fits) : o.Persists ∧ r.ComesBack ↔ r.Plain := by
  rw [and_iff_right (WireObj.persists ho hfits)]
  exact OldObj.comesBack_iff hr

def samplePart (ns : Bytes) : OldObj where
  version := 3
  bucketName := ascii "b"
  loc := []
  ns := ns
  inst := []
  origObj := ascii "n"
  bucketBytes := RgwBucket.bytes {}
  old := by decide
  inst_old _ := rfl
  bucket_reads _ := ⟨_, RgwBucket.readsFit_decode (by constructor <;> decide) _⟩

/-- A version of an object of a multipart upload, in a bucket with pools of its own. -/
def samplePartObj : WireObj where
  bucket := ⟨ascii "b", ascii ".data", ascii ".extra", ascii ".index", ascii "m", ascii "m.1"⟩
  located := { obj := ⟨ascii "_n", RgwObj.mangle (ascii "mp") (ascii "v1") (ascii "_n"), ascii "mp",
    ascii "v1"⟩ }

/-- A version in a namespace in the current form, and a plain name in an older one. -/
theorem wire_of_plain_name : samplePartObj.Persists ∧ (samplePart []).ComesBack := by
  have hfits : (samplePart []).Fits := by
    constructor <;> decide
  have hobj : samplePartObj.Fits :=
    ⟨by constructor <;> decide, by decide, by decide, by decide, by decide, by decide⟩
  exact (wire_iff samplePartObj ⟨rfl, rfl⟩ hobj (samplePart []) hfits).mpr ⟨rfl, .inl rfl⟩

/-- A name in a namespace in an older form comes back with another object string. -/
theorem old_part_renamed : ¬ (samplePart (ascii "mp")).ComesBack := by
  have hfits : (samplePart (ascii "mp")).Fits := by
    constructor <;> decide
  intro h
  have hns := ((OldObj.comesBack_iff hfits).mp h).1
  cases hns

end RadosGateway
