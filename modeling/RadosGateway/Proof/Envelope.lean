import RadosGateway.Encoding

/-!
# The envelope of a structure

A writer puts fields on a buffer, some of them structures with fields of their own; a reader takes
the fields it knows, which may depend on the version it is told, and `DECODE_FINISH` takes it over
the rest. `Reader.view` is what it should get. -/

namespace RadosGateway.Encoding

open Text Codec List
open Option hiding bind_apply

theorem reads_decodeU8 (v : UInt8) : Reads decodeU8 (encodeU8 v) v := by
  have hbytes : le 1 v.toNat = encodeU8 v := by
    simp [le, encodeU8, Nat.mod_eq_of_lt v.toNat_lt]
  have h := (reads_decodeLe_of_lt (n := 1) v.toNat_lt).map fun n => n.toUInt8
  rw [hbytes] at h
  have hvalue : v.toNat.toUInt8 = v := UInt8.ofNat_toNat
  rwa [hvalue] at h

theorem reads_decodeU16 (v : UInt16) : Reads decodeU16 (encodeU16 v) v := by
  have h := (reads_decodeLe_of_lt (n := 2) v.toNat_lt).map fun n => n.toUInt16
  have hvalue : v.toNat.toUInt16 = v := UInt16.ofNat_toNat
  rwa [hvalue] at h

theorem reads_decodeU32 (v : UInt32) : Reads decodeU32 (encodeU32 v) v := by
  have h := (reads_decodeLe_of_lt (n := 4) v.toNat_lt).map fun n => n.toUInt32
  have hvalue : v.toNat.toUInt32 = v := UInt32.ofNat_toNat
  rwa [hvalue] at h

theorem reads_decodeU64 (v : UInt64) : Reads decodeU64 (encodeU64 v) v := by
  have h := (reads_decodeLe_of_lt (n := 8) v.toNat_lt).map fun n => n.toUInt64
  have hvalue : v.toNat.toUInt64 = v := UInt64.ofNat_toNat
  rwa [hvalue] at h

theorem local_decodeU8 : Local decodeU8 := (local_decodeLe 1).map _

theorem local_decodeU16 : Local decodeU16 := (local_decodeLe 2).map _

theorem local_decodeU32 : Local decodeU32 := (local_decodeLe 4).map _

theorem local_decodeU64 : Local decodeU64 := (local_decodeLe 8).map _

inductive Written
  | done
  | raw (bytes : Bytes) (next : Written)
  | struct (structV structCompat : UInt8) (body next : Written)

def Written.encode : Written → Bytes → Bytes
  | .done, bl => bl
  | .raw bytes next, bl => next.encode (bl ++ bytes)
  | .struct structV structCompat body next, bl =>
    next.encode (encodeStruct structV structCompat body.encode 0 bl)

def Written.bytes (w : Written) : Bytes := w.encode []

inductive Got
  | done
  | bytes (field : Bytes) (next : Got)
  | struct (body next : Got)

inductive Reader
  | done
  | raw (n : Nat) (next : Bytes → Reader)
  | struct (version : Nat) (body : UInt8 → Reader) (next : Got → Reader)

namespace Reader

def decode : Reader → Decoder Got
  | .done => pure .done
  | .raw n next => do
      let field ← copy n
      let g ← (next field).decode
      pure (.bytes field g)
  | .struct version body next => do
      let b ← decodeStruct version fun structV => (body structV).decode
      let g ← (next b).decode
      pure (.struct b g)

def view : Reader → Written → Option (Got × Written)
  | .done, w => some (.done, w)
  | .raw _ next, .raw field w => ((next field).view w).map fun r => (.bytes field r.1, r.2)
  | .struct version body next, .struct structV structCompat inner w =>
    if version < structCompat.toNat then none
    else ((body structV).view inner).bind fun b =>
      ((next b.1).view w).map fun r => (.struct b.1 r.1, r.2)
  | _, _ => none

def Agrees : Reader → Written → Prop
  | .done, _ => True
  | .raw n next, .raw field w => field.length = n ∧ (next field).Agrees w
  | .struct _ body next, .struct structV _ inner w =>
    (body structV).Agrees inner ∧ ∀ b ∈ (body structV).view inner, (next b.1).Agrees w
  | _, _ => False

end Reader

structure Envelope where
  version : Nat
  body : UInt8 → Reader
  structV : UInt8
  structCompat : UInt8
  inner : Written

namespace Envelope

def bytes (e : Envelope) : Bytes := (Written.struct e.structV e.structCompat e.inner .done).bytes

def decode (e : Envelope) : Decoder Got :=
  decodeStruct e.version fun structV => (e.body structV).decode

def view (e : Envelope) : Option (Got × Written) :=
  if e.version < e.structCompat.toNat then none else (e.body e.structV).view e.inner

def SmallSkip (e : Envelope) : Prop := ∀ r ∈ e.view, r.2.bytes.length < 2 ^ 31

end Envelope

def Reader.Each (P : Envelope → Prop) : Reader → Written → Prop
  | .raw _ next, .raw field w => (next field).Each P w
  | .struct version body next, .struct structV structCompat inner w =>
    P ⟨version, body, structV, structCompat, inner⟩ ∧ (body structV).Each P inner ∧
      ∀ b ∈ (body structV).view inner, (next b.1).Each P w
  | _, _ => True

def header (structV structCompat : UInt8) (len : Nat) : Bytes := [structV, structCompat] ++ le 4 len

@[simp]
theorem length_header (structV structCompat : UInt8) (len : Nat) :
    (header structV structCompat len).length = 6 := by
  simp [header]

theorem encodeStruct_eq {body : Bytes → Bytes} {bytes : Bytes} (hbody : ∀ bl, body bl = bl ++ bytes)
    (structV structCompat : UInt8) (bl : Bytes) : encodeStruct structV structCompat body 0 bl
      = bl ++ (header structV structCompat bytes.length ++ bytes) := by
  have hlen : (bl ++ [structV] ++ [structCompat] ++ le 4 0 ++ bytes).length
      - ((bl ++ [structV] ++ [structCompat] ++ le 4 0).length - 4) - 4 = bytes.length := by
    simp only [length_append, length_cons, length_nil, length_le]
    omega
  have hat : (bl ++ [structV] ++ [structCompat] ++ le 4 0).length - 4
      = (bl ++ [structV] ++ [structCompat]).length := by
    simp
  unfold encodeStruct encodeU8
  rw [if_neg (by simp), hbody, hlen, hat, copyIn]
  rw [append_assoc _ (le 4 0), take_left, drop_append]
  simp [header, le]

theorem Written.exists_encode (w : Written) : ∃ bytes, ∀ bl, w.encode bl = bl ++ bytes := by
  induction w with
  | done => exact ⟨[], fun bl => (append_nil bl).symm⟩
  | raw field next ih =>
    obtain ⟨bytes, hbytes⟩ := ih
    refine ⟨field ++ bytes, fun bl => ?_⟩
    rw [encode, hbytes, append_assoc]
  | struct structV structCompat body next ihBody ihNext =>
    obtain ⟨inner, hinner⟩ := ihBody
    obtain ⟨bytes, hbytes⟩ := ihNext
    refine ⟨header structV structCompat inner.length ++ inner ++ bytes, fun bl => ?_⟩
    rw [encode, hbytes, encodeStruct_eq hinner, append_assoc, append_assoc]

theorem Written.encode_eq (w : Written) (bl : Bytes) : w.encode bl = bl ++ w.bytes := by
  obtain ⟨bytes, hbytes⟩ := w.exists_encode
  rw [Written.bytes, hbytes, hbytes, nil_append]

@[simp]
theorem Written.bytes_done : Written.done.bytes = [] := rfl

@[simp]
theorem Written.bytes_raw (field : Bytes) (next : Written) :
    (Written.raw field next).bytes = field ++ next.bytes := by
  rw [Written.bytes, encode, encode_eq, nil_append]

theorem Written.bytes_struct (structV structCompat : UInt8) (body next : Written) :
    (Written.struct structV structCompat body next).bytes
      = header structV structCompat body.bytes.length ++ body.bytes ++ next.bytes := by
  rw [Written.bytes, encode, encode_eq, encodeStruct_eq body.encode_eq, nil_append]

theorem Envelope.bytes_eq (e : Envelope) :
    e.bytes = header e.structV e.structCompat e.inner.bytes.length ++ e.inner.bytes := by
  rw [Envelope.bytes, Written.bytes_struct, Written.bytes_done, append_nil]

section Struct

variable {α : Type} (version : Nat) (fields : UInt8 → Decoder α)

variable {len : Nat}

theorem reads_decodeU32_of_lt (hlen : len < 2 ^ 32) : Reads decodeU32 (le 4 len) len.toUInt32 :=
  (reads_decodeLe_of_lt (n := 4) hlen).map fun n => n.toUInt32

theorem decodeLength_apply (hlen : len < 2 ^ 32) (before rest : Bytes) :
    decodeLength ⟨before, le 4 len ++ rest⟩ = if rest.length < len then none
        else some ((before.length + 4 + len) % 2 ^ 32, ⟨before ++ le 4 len, rest⟩) := by
  have hvalue : len.toUInt32.toNat = len := UInt32.toNat_ofNat_of_lt' hlen
  unfold decodeLength
  rw [bind_apply, reads_decodeU32_of_lt hlen]
  change (if rest.length < len.toUInt32.toNat then fail else _ : Decoder Nat) _ = _
  rw [hvalue]
  split_ifs with hshort
  · rfl
  · change some (((before ++ le 4 len).length + len) % 2 ^ 32, _) = _
    rw [length_append, length_le]

/-- `DECODE_START` refuses a structure for newer readers and one that is cut off. -/
theorem decodeStruct_header (structV structCompat : UInt8) (hlen : len < 2 ^ 32)
    (before rest : Bytes) :
    decodeStruct version fields ⟨before, header structV structCompat len ++ rest⟩
      = if version < structCompat.toNat ∨ rest.length < len then none
        else (fields structV ⟨before ++ header structV structCompat len, rest⟩).bind fun r =>
          (decodeFinish ((before.length + 6 + len) % 2 ^ 32) r.2).map fun f => (r.1, f.2) := by
  have hbytes : header structV structCompat len ++ rest
      = encodeU8 structV ++ (encodeU8 structCompat ++ (le 4 len ++ rest)) := by
    simp [header, encodeU8]
  have hbefore : before ++ encodeU8 structV ++ encodeU8 structCompat ++ le 4 len
      = before ++ header structV structCompat len := by
    simp [header, encodeU8]
  have hlength : (before ++ encodeU8 structV ++ encodeU8 structCompat).length + 4 =
      before.length + 6 := by
    simp [encodeU8]
  unfold decodeStruct
  rw [hbytes, bind_apply, reads_decodeU8]
  change (decodeU8 >>= _) _ = _
  rw [bind_apply, reads_decodeU8]
  change (if version < structCompat.toNat then fail else _ : Decoder α) _ = _
  by_cases hversion : version < structCompat.toNat
  · rw [if_pos hversion, if_pos (Or.inl hversion)]
    rfl
  · rw [if_neg hversion, bind_apply, decodeLength_apply hlen, hbefore, hlength]
    by_cases hshort : rest.length < len
    · rw [if_pos hshort, if_pos (Or.inr hshort)]
      rfl
    · rw [if_neg hshort, if_neg (by tauto)]
      change (fields structV >>= _) _ = _
      rw [bind_apply]
      congr 1
      funext r
      rw [bind_apply]
      cases decodeFinish ((before.length + 6 + len) % 2 ^ 32) r.2 <;> rfl

theorem length_of_decodeStruct {it it' : Iter} {a : α}
    (h : decodeStruct version fields it = some (a, it')) : 6 ≤ it.rest.length := by
  obtain ⟨⟨structV, it₁⟩, hV, h⟩ := bind_eq_some_iff.mp h
  obtain ⟨⟨structCompat, it₂⟩, hCompat, h⟩ := bind_eq_some_iff.mp h
  change (if version < structCompat.toNat then fail else _ : Decoder α) it₂ = _ at h
  split_ifs at h
  · cases h
  · obtain ⟨⟨structEnd, it₃⟩, hEnd, -⟩ := bind_eq_some_iff.mp h
    obtain ⟨⟨structLen, it₄⟩, hLen, -⟩ := bind_eq_some_iff.mp hEnd
    have hV' := length_rest_of_decodeLe hV
    have hCompat' := length_rest_of_decodeLe hCompat
    have hLen' := length_rest_of_decodeLe hLen
    omega

variable {structEnd : Nat}

theorem decodeFinish_near (it : Iter) (hpos : 0 < structEnd) (hle : it.off ≤ structEnd)
    (hsmall : structEnd - it.off < 2 ^ 31) (hin : structEnd - it.off ≤ it.rest.length) :
    decodeFinish structEnd it
      = some ((), ⟨it.before ++ it.rest.take (structEnd - it.off),
        it.rest.drop (structEnd - it.off)⟩) := by
  unfold decodeFinish
  change (if structEnd = 0 then _ else _ : Decoder Unit) it = _
  rw [if_neg (by omega), if_neg (by omega)]
  by_cases hlt : it.off < structEnd
  · have hint : toInt32 (structEnd - it.off) = ((structEnd - it.off : Nat) : Int) := by
      rw [toInt32, BitVec.toInt_eq_toNat_of_lt]
      · simp only [BitVec.toNat_ofNat]
        omega
      · simp only [BitVec.toNat_ofNat]
        omega
    rw [if_pos hlt, hint, advance, if_pos (by omega), Int.toNat_natCast, copy, if_pos hin]
    rfl
  · have hzero : structEnd - it.off = 0 := by omega
    rw [if_neg hlt, hzero, take_zero, drop_zero, append_nil]
    rfl

theorem decodeFinish_far (it : Iter) {it' : Iter} (hend : structEnd < 2 ^ 32)
    (hle : it.off ≤ structEnd) (hfar : 2 ^ 31 ≤ structEnd - it.off)
    (hrun : decodeFinish structEnd it = some ((), it')) : it'.off < structEnd := by
  unfold decodeFinish at hrun
  change (if structEnd = 0 then _ else _ : Decoder Unit) it = _ at hrun
  rw [if_neg (by omega), if_neg (by omega), if_pos (by omega)] at hrun
  have hint : toInt32 (structEnd - it.off) = ((structEnd - it.off : Nat) : Int) - 2 ^ 32 := by
    rw [toInt32, BitVec.toInt_eq_toNat_cond, BitVec.toNat_ofNat]
    omega
  rw [hint, advance, if_neg (by omega)] at hrun
  split_ifs at hrun
  obtain ⟨-, rfl⟩ := Prod.mk.inj (some.inj hrun)
  omega

theorem decodeFinish_past {it : Iter} (hpos : 0 < structEnd)
    (hpast : structEnd < it.off) : decodeFinish structEnd it = none := by
  unfold decodeFinish
  change (if structEnd = 0 then _ else _ : Decoder Unit) it = _
  rw [if_neg (by omega), if_pos hpast]
  rfl

end Struct

def Fits (before bytes rest : Bytes) : Prop := (before ++ bytes ++ rest).length < 2 ^ 32

theorem Fits.left {before bytes bytes' rest : Bytes} (h : Fits before (bytes ++ bytes') rest) :
    Fits before bytes (bytes' ++ rest) := by
  rw [Fits, ← append_assoc, append_assoc before]
  exact h

theorem Fits.right {before bytes bytes' rest : Bytes} (h : Fits before (bytes ++ bytes') rest) :
    Fits (before ++ bytes) bytes' rest := by
  rw [Fits, append_assoc before]
  exact h

def ReadsFit {α : Type} (d : Decoder α) (bytes : Bytes) (a : α) : Prop :=
  ∀ before rest, Fits before bytes rest →
    d ⟨before, bytes ++ rest⟩ = some (a, ⟨before ++ bytes, rest⟩)

section ReadsFit

variable {α β : Type} {d : Decoder α} {f : α → Decoder β} {bytes bytes' : Bytes} {a : α} {b : β}

theorem ReadsFit.of_reads (h : Reads d bytes a) : ReadsFit d bytes a :=
  fun before rest _ => h before rest

def GivesFit (d : Decoder α) (bytes : Bytes) (r : Option α) : Prop :=
  ∀ before rest, Fits before bytes rest → d ⟨before, bytes ++ rest⟩ = r.map fun a =>
    (a, ⟨before ++ bytes, rest⟩)

theorem ReadsFit.bind_gives {r : Option β} (h : ReadsFit d bytes a) (h' : GivesFit (f a) bytes' r) :
    GivesFit (d >>= f) (bytes ++ bytes') r := by
  intro before rest hfits
  rw [append_assoc, bind_of_eq_some (h _ _ hfits.left), h' _ _ hfits.right, append_assoc]

theorem ReadsFit.bind (h : ReadsFit d bytes a) (h' : ReadsFit (f a) bytes' b) :
    ReadsFit (d >>= f) (bytes ++ bytes') b :=
  h.bind_gives (r := some b) h'

variable {version : Nat} {fields : UInt8 → Decoder α} {structV structCompat : UInt8}

variable {before rest : Bytes}

/-- `DECODE_FINISH` skips what the fields left over. -/
theorem decodeStruct_of_fields {r : Option α} (hversion : structCompat.toNat ≤ version)
    (hfits : Fits before (header structV structCompat bytes.length ++ bytes) rest)
    (h : fields structV ⟨before ++ header structV structCompat bytes.length, bytes ++ rest⟩
      = r.map fun a => (a, ⟨before ++ header structV structCompat bytes.length ++ bytes, rest⟩)) :
    decodeStruct version fields ⟨before, header structV structCompat bytes.length ++ bytes ++ rest⟩
      = r.map fun a => (a,
        ⟨before ++ (header structV structCompat bytes.length ++ bytes), rest⟩) := by
  have htotal : before.length + (6 + bytes.length) + rest.length < 2 ^ 32 := by
    simpa [Fits, add_assoc] using hfits
  have hend : (before.length + 6 + bytes.length) % 2 ^ 32
      = (before ++ header structV structCompat bytes.length ++ bytes).length := by
    rw [Nat.mod_eq_of_lt (by omega)]
    simp only [length_append, length_header]
  have hoff : (before ++ header structV structCompat bytes.length ++ bytes).length
      - Iter.off ⟨before ++ header structV structCompat bytes.length ++ bytes, rest⟩ = 0 :=
        Nat.sub_self _
  have hpos : 0 < (before ++ header structV structCompat bytes.length ++ bytes).length := by
    omega
  have hnear := decodeFinish_near ⟨before ++ header structV structCompat bytes.length ++
    bytes, rest⟩
    hpos (Nat.le_refl _) (by omega) (by omega)
  rw [hoff, take_zero, drop_zero, append_nil] at hnear
  rw [append_assoc, decodeStruct_header _ _ _ _ (by omega), if_neg, h, hend, ← append_assoc]
  · cases r with
    | none => rfl
    | some a =>
      rw [map_some, bind_some, hnear]
      rfl
  · rw [length_append]
    omega

theorem readsFit_decodeStruct (hversion : structCompat.toNat ≤ version)
    (h : ReadsFit (fields structV) bytes a) :
    ReadsFit (decodeStruct version fields)
    (header structV structCompat bytes.length ++ bytes) a := by
  intro before rest hfits
  exact decodeStruct_of_fields (r := some a) hversion hfits (h _ _ hfits.right)

theorem decodeStructLegacy_header {compatv lenv skipV len : Nat}
    (hcompatv : compatv ≤ structV.toNat)
    (hlenv : lenv ≤ structV.toNat) (before rest : Bytes) :
    decodeStructLegacy version compatv lenv skipV fields
        ⟨before, header structV structCompat len ++ rest⟩
      = decodeStruct version fields ⟨before, header structV structCompat len ++ rest⟩ := by
  have hbytes : header structV structCompat len ++ rest
      = encodeU8 structV ++ (encodeU8 structCompat ++ (le 4 len ++ rest)) := by
    simp [header, encodeU8]
  unfold decodeStructLegacy decodeStruct
  rw [hbytes, bind_of_eq_some (reads_decodeU8 structV _ _),
    bind_of_eq_some (reads_decodeU8 structV _ _),
    if_pos hcompatv, if_pos hlenv]
  rw [bind_apply, reads_decodeU8]
  change (if version < structCompat.toNat then _ else _ : Decoder α) _ = _
  by_cases hversion : version < structCompat.toNat
  · rw [if_pos hversion, bind_of_eq_some (reads_decodeU8 _ _ _), if_pos hversion]
    rfl
  · rw [if_neg hversion, bind_of_eq_some (reads_decodeU8 _ _ _), if_neg hversion]

theorem givesFit_decodeStructLegacy {compatv lenv skipV : Nat} {r : Option α}
    (hcompatv : compatv ≤ structV.toNat)
    (hlenv : lenv ≤ structV.toNat) (hversion : structCompat.toNat ≤ version)
    (h : GivesFit (fields structV) bytes r) :
    GivesFit (decodeStructLegacy version compatv lenv skipV fields)
      (header structV structCompat bytes.length ++ bytes) r := by
  intro before rest hfits
  rw [append_assoc, decodeStructLegacy_header hcompatv hlenv, ← append_assoc]
  exact decodeStruct_of_fields hversion hfits (h _ _ hfits.right)

theorem readsFit_decodeStructLegacy {compatv lenv skipV : Nat} (hcompatv : compatv ≤ structV.toNat)
    (hlenv : lenv ≤ structV.toNat) (hversion : structCompat.toNat ≤ version)
    (h : ReadsFit (fields structV) bytes a) :
    ReadsFit (decodeStructLegacy version compatv lenv skipV fields)
      (header structV structCompat bytes.length ++ bytes) a :=
  givesFit_decodeStructLegacy (r := some a) hcompatv hlenv hversion h

variable {compatv lenv : Nat}

theorem decodeStructLegacy_bare (hcompatv : structV.toNat < compatv)
    (hlenv : structV.toNat < lenv) (before rest : Bytes) :
    decodeStructLegacy version compatv lenv 0 fields ⟨before, encodeU8 structV ++ rest⟩
      = fields structV ⟨before ++ encodeU8 structV, rest⟩ := by
  unfold decodeStructLegacy
  rw [bind_of_eq_some (reads_decodeU8 structV _ _), if_neg (Nat.not_le.mpr hcompatv),
    if_neg (not_not.mpr rfl), if_neg (Nat.not_le.mpr hlenv)]
  change (fields structV ⟨before ++ encodeU8 structV, rest⟩).bind _ = _
  cases fields structV ⟨before ++ encodeU8 structV, rest⟩ <;> rfl

theorem decodeStructLegacy_skip {skipped : Bytes} (hskipped : skipped ≠ [])
    (hcompatv : structV.toNat < compatv) (hlenv : structV.toNat < lenv)
    (hrest : (skipped ++ rest).length < 2 ^ 32) :
    decodeStructLegacy version compatv lenv skipped.length fields
        ⟨before, encodeU8 structV ++ (skipped ++ rest)⟩
      = if (skipped ++ rest).length < 2 ^ 31 then
        fields structV ⟨before ++ encodeU8 structV ++ skipped, rest⟩
        else none := by
  have hpos : skipped.length ≠ 0 := fun h => hskipped (length_eq_zero_iff.mp h)
  have hle : skipped.length ≤ (skipped ++ rest).length := by
    rw [length_append]
    exact Nat.le_add_right _ _
  unfold decodeStructLegacy
  rw [bind_of_eq_some (reads_decodeU8 structV _ _), if_neg (Nat.not_le.mpr hcompatv), if_pos hpos,
    if_neg (Nat.not_le.mpr hlenv)]
  change (if toInt32 (skipped ++ rest).length < skipped.length then _ else _ : Decoder α)
    ⟨before ++ encodeU8 structV, skipped ++ rest⟩ = _
  by_cases hnear : (skipped ++ rest).length < 2 ^ 31
  · have hint : ¬ toInt32 (skipped ++ rest).length < skipped.length := by
      rw [toInt32, BitVec.toInt_eq_toNat_of_lt]
      · rw [BitVec.toNat_ofNat, Nat.mod_eq_of_lt hrest]
        omega
      · rw [BitVec.toNat_ofNat, Nat.mod_eq_of_lt hrest]
        omega
    have hskip : advance skipped.length ⟨before ++ encodeU8 structV, skipped ++ rest⟩
        = some ((), ⟨before ++ encodeU8 structV ++ skipped, rest⟩) := by
      rw [advance, if_pos (Int.natCast_nonneg _), Int.toNat_natCast, reads_copy skipped]
      rfl
    rw [if_pos hnear, if_neg hint, bind_of_eq_some hskip]
    change (fields structV ⟨before ++ encodeU8 structV ++ skipped, rest⟩).bind _ = _
    cases fields structV ⟨before ++ encodeU8 structV ++ skipped, rest⟩ <;> rfl
  · have hint : toInt32 (skipped ++ rest).length < skipped.length := by
      rw [toInt32, BitVec.toInt_eq_toNat_cond, BitVec.toNat_ofNat, Nat.mod_eq_of_lt hrest,
        if_neg (by omega)]
      omega
    rw [if_neg hnear, if_pos hint]
    rfl

theorem givesFit_decodeStructLegacy_bare {r : Option α} (hcompatv : structV.toNat < compatv)
    (hlenv : structV.toNat < lenv) (h : GivesFit (fields structV) bytes r) :
    GivesFit (decodeStructLegacy version compatv lenv 0 fields) (encodeU8 structV ++ bytes) r := by
  intro before rest hfits
  rw [append_assoc, decodeStructLegacy_bare hcompatv hlenv, h _ _ hfits.right, append_assoc]

end ReadsFit

structure Reader.Decodes (r : Reader) (w : Written) : Prop where
  gets : ∀ g ∈ r.view w, ∃ used, w.bytes = used ++ g.2.bytes ∧ ReadsFit r.decode used g.1
  refuses : r.view w = none → ∀ before rest, Fits before w.bytes rest →
    r.decode ⟨before, w.bytes ++ rest⟩ = none

namespace Envelope

variable {e : Envelope}

def Decodes (e : Envelope) : Prop :=
  ∀ before rest, Fits before e.bytes rest →
    e.decode ⟨before, e.bytes ++ rest⟩ = e.view.map fun r => (r.1, ⟨before ++ e.bytes, rest⟩)

variable {g : Got × Written}

theorem mem_body_view (hg : g ∈ e.view) : g ∈ (e.body e.structV).view e.inner := by
  unfold view at hg
  split_ifs at hg
  · cases hg
  · exact hg

theorem length_bytes (e : Envelope) : e.bytes.length = 6 + e.inner.bytes.length := by
  rw [bytes_eq, length_append, length_header]

theorem decode_bytes (before rest : Bytes) (hfits : Fits before e.bytes rest) :
    e.decode ⟨before, e.bytes ++ rest⟩
      = if e.version < e.structCompat.toNat then none else ((e.body e.structV).decode
          ⟨before ++ header e.structV e.structCompat e.inner.bytes.length,
            e.inner.bytes ++ rest⟩).bind
            fun r => (decodeFinish (before ++ e.bytes).length r.2).map fun f => (r.1, f.2) := by
  have hlength := e.length_bytes
  have hall : (before ++ e.bytes).length < 2 ^ 32 := by
    rw [Fits, length_append] at hfits
    omega
  have hend : (before.length + 6 + e.inner.bytes.length) % 2 ^ 32 = (before ++ e.bytes).length := by
    rw [length_append] at hall ⊢
    omega
  have hlen : e.inner.bytes.length < 2 ^ 32 := by
    rw [length_append] at hall
    omega
  have hroom : ¬ (e.inner.bytes ++ rest).length < e.inner.bytes.length := by
    rw [length_append]
    omega
  rw [decode, bytes_eq, append_assoc, decodeStruct_header _ _ _ _ hlen, hend, ← bytes_eq]
  by_cases hversion : e.version < e.structCompat.toNat
  · rw [if_pos hversion, if_pos (Or.inl hversion)]
  · rw [if_neg hversion, if_neg (by tauto)]

section

variable (hbody : (e.body e.structV).Decodes e.inner)
include hbody

/-- Whatever a reader knows, it is a beginning of what was written. -/
theorem decode_eq_finish (hg : e.view = some g) (before rest : Bytes)
    (hfits : Fits before e.bytes rest) :
    ∃ known, e.bytes = known ++ g.2.bytes ∧ e.decode ⟨before, e.bytes ++ rest⟩
        = (decodeFinish (before ++ e.bytes).length ⟨before ++ known, g.2.bytes ++ rest⟩).map
          fun f => (g.1, f.2) := by
  unfold view at hg
  split_ifs at hg with hversion
  obtain ⟨used, hused, hreads⟩ := hbody.gets g hg
  refine ⟨header e.structV e.structCompat e.inner.bytes.length ++ used, ?_, ?_⟩
  · rw [bytes_eq, append_assoc, ← hused]
  · have hwhole : before ++ header e.structV e.structCompat e.inner.bytes.length ++ used
        ++ (g.2.bytes ++ rest) = before ++ e.bytes ++ rest := by
      rw [bytes_eq, hused]
      simp only [append_assoc]
    have hfields : Fits (before ++ header e.structV e.structCompat e.inner.bytes.length) used
        (g.2.bytes ++ rest) := by
      rw [Fits, hwhole]
      exact hfits
    rw [decode_bytes before rest hfits, if_neg hversion]
    have hinner : e.inner.bytes ++ rest = used ++ (g.2.bytes ++ rest) := by
      rw [hused, append_assoc]
    rw [hinner, hreads _ _ hfields, ← append_assoc before]
    rfl

theorem decodes_of_smallSkip (hsmall : e.SmallSkip) : e.Decodes := by
  intro before rest hfits
  cases hview : e.view with
  | some g =>
    obtain ⟨known, hknown, hdecode⟩ := decode_eq_finish hbody hview before rest hfits
    have hskip : (before ++ e.bytes).length - (before ++ known).length = g.2.bytes.length := by
      rw [hknown]
      simp only [length_append]
      omega
    have hle : (before ++ known).length ≤ (before ++ e.bytes).length := by
      rw [hknown]
      simp only [length_append]
      omega
    have hpos : 0 < (before ++ e.bytes).length := by
      rw [length_append, length_bytes]
      omega
    have hnear := decodeFinish_near ⟨before ++ known, g.2.bytes ++ rest⟩ hpos hle
      (by rw [Iter.off, hskip]; exact hsmall g hview)
      (by rw [Iter.off, hskip, length_append]; omega)
    rw [Iter.off, hskip, take_left, drop_left, append_assoc before, ← hknown] at hnear
    rw [hdecode, hnear]
    rfl
  | none =>
    rw [decode_bytes before rest hfits]
    unfold view at hview
    split_ifs with hversion
    · rfl
    · rw [if_neg hversion] at hview
      rw [bytes_eq] at hfits
      rw [hbody.refuses hview _ _ hfits.right]
      rfl

/-- `DECODE_FINISH` skips with an `int`, so decoding needs a skip below `2 ^ 31`. -/
theorem smallSkip_of_decodes (hfits : e.bytes.length < 2 ^ 32) (h : e.Decodes) : e.SmallSkip := by
  intro g hg
  by_contra hlarge
  have hall : Fits [] e.bytes [] := by
    rw [Fits, nil_append, append_nil]
    exact hfits
  obtain ⟨known, hknown, hdecode⟩ := decode_eq_finish hbody hg [] [] hall
  rw [h [] [] hall, show e.view = some g from hg] at hdecode
  obtain ⟨f, hf, hstop⟩ := map_eq_some_iff.mp hdecode.symm
  have hoff : f.2 = ⟨e.bytes, []⟩ := (Prod.mk.inj hstop).2
  have hlength : e.bytes.length = known.length + g.2.bytes.length := by
    rw [hknown, length_append]
  have hle : known.length ≤ e.bytes.length := by omega
  have hfar : 2 ^ 31 ≤ e.bytes.length - known.length := by omega
  have hback := decodeFinish_far ⟨known, g.2.bytes ++ []⟩ hfits hle hfar hf
  rw [hoff] at hback
  exact absurd hback (Nat.lt_irrefl _)

end

/-- A structure without its last bytes is refused by its reader. -/
theorem decode_truncated (hfits : e.bytes.length < 2 ^ 32) {cut tail : Bytes}
    (hcut : e.bytes = cut ++ tail) (htail : tail ≠ []) (before : Bytes) :
    e.decode ⟨before, cut⟩ = none := by
  have hlength := e.length_bytes
  have hlost : 0 < tail.length := length_pos_iff.mpr htail
  have hsum : e.bytes.length = cut.length + tail.length := by rw [hcut, length_append]
  by_contra hsome
  obtain ⟨⟨b, it⟩, hrun⟩ := ne_none_iff_exists'.mp hsome
  have hheader : 6 ≤ cut.length := length_of_decodeStruct _ _ hrun
  obtain ⟨part, rfl⟩ : ∃ part, cut = header e.structV e.structCompat e.inner.bytes.length ++
      part := by
    rw [bytes_eq] at hcut
    exact (prefix_of_prefix_length_le ⟨_, rfl⟩ ⟨tail, hcut.symm⟩ (by simpa using hheader)).imp
      fun part hpart => hpart.symm
  rw [length_append, length_header] at hsum
  rw [decode, decodeStruct_header _ _ _ _ (by omega), if_pos (Or.inr (by omega))] at hrun
  cases hrun

end Envelope

namespace Reader

variable {field : Bytes}

theorem decodes_raw {next : Bytes → Reader} {w : Written}
    (hnext : (next field).Decodes w) : (raw field.length next).Decodes (.raw field w) := by
  constructor
  · intro g hg
    obtain ⟨g, hview, rfl⟩ := map_eq_some_iff.mp hg
    obtain ⟨used, hused, hreads⟩ := hnext.gets g hview
    refine ⟨field ++ used, ?_, fun before rest hfits => ?_⟩
    · rw [Written.bytes_raw, hused, append_assoc]
    · rw [decode, append_assoc, bind_of_eq_some (reads_copy field before _),
        bind_of_eq_some (hreads _ _ hfits.right), append_assoc]
      rfl
  · intro hview before rest hfits
    rw [Written.bytes_raw] at hfits ⊢
    rw [decode, append_assoc, bind_of_eq_some (reads_copy field before _)]
    exact bind_of_eq_none (hnext.refuses (map_eq_none_iff.mp hview) _ _ hfits.right)

section Struct

variable {e : Envelope} {next : Got → Reader} {w : Written}

theorem view_struct (e : Envelope) (next : Got → Reader) (w : Written) :
    (struct e.version e.body next).view (.struct e.structV e.structCompat e.inner w)
      = e.view.bind fun b => ((next b.1).view w).map fun r => (.struct b.1 r.1, r.2) := by
  rw [view, Envelope.view]
  split_ifs <;> rfl

theorem decode_struct (e : Envelope) (next : Got → Reader) : (struct e.version e.body next).decode
      = (e.decode >>= fun b => (next b).decode >>= fun g => pure (Got.struct b g)) := rfl

theorem bytes_struct (e : Envelope) (w : Written) :
    (Written.struct e.structV e.structCompat e.inner w).bytes = e.bytes ++ w.bytes := by
  rw [Written.bytes_struct, Envelope.bytes_eq]

/-- A structure behind a reader, followed by its continuation. -/
theorem decodes_struct (he : e.Decodes) (hnext : ∀ b ∈ e.view, (next b.1).Decodes w) :
    (struct e.version e.body next).Decodes (.struct e.structV e.structCompat e.inner w) := by
  constructor
  · intro g hg
    rw [view_struct] at hg
    obtain ⟨b, hb, hg⟩ := bind_eq_some_iff.mp hg
    obtain ⟨g, hview, rfl⟩ := map_eq_some_iff.mp hg
    obtain ⟨used, hused, hreads⟩ := (hnext b hb).gets g hview
    refine ⟨e.bytes ++ used, ?_, fun before rest hfits => ?_⟩
    · rw [bytes_struct, hused, append_assoc]
    · have hstruct := he before (used ++ rest) hfits.left
      rw [hb] at hstruct
      rw [decode_struct, append_assoc, bind_of_eq_some hstruct,
        bind_of_eq_some (hreads _ _ hfits.right), append_assoc]
      rfl
  · intro hview before rest hfits
    rw [view_struct] at hview
    rw [bytes_struct] at hfits ⊢
    have hstruct := he before (w.bytes ++ rest) hfits.left
    rw [decode_struct, append_assoc]
    cases hb : e.view with
    | none =>
      rw [hb] at hstruct
      exact bind_of_eq_none hstruct
    | some b =>
      rw [hb] at hview hstruct
      rw [bind_of_eq_some hstruct]
      exact bind_of_eq_none ((hnext b hb).refuses (map_eq_none_iff.mp hview) _ _ hfits.right)

end Struct

variable {r : Reader} {w : Written}

/-- Induction over a message and its reader at once. -/
theorem Agrees.rule {P : Reader → Written → Prop} (h : r.Agrees w) (hdone : ∀ w, P done w)
    (hraw : ∀ {next : Bytes → Reader} {field w}, P (next field) w →
      P (raw field.length next) (.raw field w))
    (hstruct : ∀ {e : Envelope} {next : Got → Reader} {w}, (e.body e.structV).Agrees e.inner →
      P (e.body e.structV) e.inner → (∀ b ∈ (e.body e.structV).view e.inner, P (next b.1) w) →
      P (struct e.version e.body next) (.struct e.structV e.structCompat e.inner w)) : P r w := by
  induction r generalizing w with
  | done => exact hdone w
  | raw n next ih =>
    cases w with
    | raw field w =>
      obtain ⟨rfl, h⟩ := h
      exact hraw (ih field h)
    | _ => exact h.elim
  | struct version body next ihBody ihNext =>
    cases w with
    | struct structV structCompat inner w =>
      exact hstruct (e := ⟨version, body, structV, structCompat, inner⟩) h.1 (ihBody structV h.1)
        fun b hb =>
        ihNext b.1 (h.2 b hb)
    | _ => exact h.elim

/-- If each structure of a message decodes, the message does. -/
theorem decodes_of_each {P : Envelope → Prop}
    (hP : ∀ {e}, (e.body e.structV).Decodes e.inner → P e → e.Decodes)
    (hagrees : r.Agrees w) : r.Each P w → r.Decodes w := by
  refine hagrees.rule (P := fun r w => r.Each P w → r.Decodes w) ?_ ?_ ?_
  · rintro w -
    refine ⟨fun g hg => ⟨[], ?_, fun before rest _ => ?_⟩, fun hview => nomatch hview⟩
    · cases hg
      rfl
    · cases hg
      rw [append_nil]
      rfl
  · exact fun ih heach => decodes_raw (ih heach)
  · rintro e next w - ihBody ihNext ⟨hhere, hbody, hlater⟩
    apply decodes_struct (hP (ihBody hbody) hhere)
    intro b hb
    replace hb := Envelope.mem_body_view hb
    exact ihNext b hb (hlater b hb)

theorem length_parts {version : Nat} {body : UInt8 → Reader} {structV structCompat : UInt8}
    {inner w : Written}
    (hfits : (Written.struct structV structCompat inner w).bytes.length < 2 ^ 32) :
    (Envelope.mk version body structV structCompat inner).bytes.length < 2 ^ 32 ∧
      inner.bytes.length < 2 ^ 32 ∧ w.bytes.length < 2 ^ 32 := by
  rw [Envelope.bytes_eq]
  rw [Written.bytes_struct] at hfits
  simp only [length_append, length_header] at hfits ⊢
  omega

theorem Each.imp {P Q : Envelope → Prop} (hPQ : ∀ {e}, (e.body e.structV).Agrees e.inner →
      (e.body e.structV).Each P e.inner → e.bytes.length < 2 ^ 32 → P e → Q e) (hagrees :
    r.Agrees w) :
    w.bytes.length < 2 ^ 32 → r.Each P w → r.Each Q w := by
  refine hagrees.rule (P := fun r w => w.bytes.length < 2 ^ 32 → r.Each P w → r.Each Q w) ?_ ?_ ?_
  · exact fun _ _ _ => trivial
  · intro next field w ih hfits heach
    rw [Written.bytes_raw, length_append] at hfits
    exact ih (by omega) heach
  · rintro e next w hbody ihBody ihNext hfits ⟨hhere, hinner, hlater⟩
    obtain ⟨hstruct, hfits', hnext⟩ := length_parts hfits
    exact ⟨hPQ hbody hinner hstruct hhere, ihBody hfits' hinner, fun b hb =>
      ihNext b hb hnext (hlater b hb)⟩

theorem cut_cases {piece more cut tail : Bytes} (h : piece ++ more = cut ++ tail) :
    (∃ cut', cut = piece ++ cut' ∧ more = cut' ++ tail) ∨ ∃ lost, lost ≠ [] ∧
    piece = cut ++ lost := by
  rcases append_eq_append_iff.mp h with ⟨cut', hcut, hmore⟩ | ⟨lost, hpiece, htail⟩
  · exact Or.inl ⟨cut', hcut, hmore⟩
  · by_cases hlost : lost = []
    · subst hlost
      exact Or.inl ⟨[], by simpa using hpiece.symm, by simpa using htail.symm⟩
    · exact Or.inr ⟨lost, hlost, hpiece⟩

def RefusesCut (r : Reader) (w : Written) : Prop :=
  ∀ g, r.view w = some (g, .done) → ∀ before cut tail, w.bytes = cut ++ tail → tail ≠ [] →
    Fits before w.bytes [] → r.decode ⟨before, cut⟩ = none

theorem refusesCut_raw {next : Bytes → Reader} (hnext : (next field).RefusesCut w) :
    (raw field.length next).RefusesCut (.raw field w) := by
  intro g hview before cut tail hcut htail hfits
  obtain ⟨⟨g', left⟩, hview, hg⟩ := map_eq_some_iff.mp hview
  obtain rfl := (Prod.mk.inj hg).2
  rw [Written.bytes_raw] at hcut hfits
  rw [decode]
  rcases cut_cases hcut with ⟨cut', rfl, hmore⟩ | ⟨lost, hlost, hfield⟩
  · rw [bind_of_eq_some (reads_copy field before cut')]
    apply bind_of_eq_none
    exact hnext g' hview _ _ _ hmore htail hfits.right
  · apply bind_of_eq_none
    have hlength := length_pos_iff.mpr hlost
    have hshort : ¬ field.length ≤ cut.length := by
      rw [hfield, length_append]
      omega
    exact if_neg hshort

/-- A structure without its last bytes is refused. -/
theorem refusesCut_struct {e : Envelope} {next : Got → Reader} (he : e.Decodes)
    (hnext : ∀ b ∈ e.view, (next b.1).RefusesCut w) :
    (struct e.version e.body next).RefusesCut (.struct e.structV e.structCompat e.inner w) := by
  intro g hview before cut tail hcut htail hfits
  rw [view_struct] at hview
  obtain ⟨b, hb, hrest⟩ := bind_eq_some_iff.mp hview
  obtain ⟨⟨g', left⟩, hview, hg⟩ := map_eq_some_iff.mp hrest
  obtain rfl := (Prod.mk.inj hg).2
  rw [bytes_struct] at hcut hfits
  have htotal : before.length + (e.bytes.length + w.bytes.length) < 2 ^ 32 := by
    simpa [Fits] using hfits
  rw [decode_struct]
  rcases cut_cases hcut with ⟨cut', rfl, hmore⟩ | ⟨lost, hlost, hpiece⟩
  · have hlength : w.bytes.length = cut'.length + tail.length := by
      rw [hmore, length_append]
    have hstruct := he before cut' (by simp only [Fits, length_append]; omega)
    rw [hb] at hstruct
    rw [bind_of_eq_some hstruct]
    apply bind_of_eq_none
    exact hnext b hb g' hview _ _ _ hmore htail hfits.right
  · apply bind_of_eq_none
    exact Envelope.decode_truncated (by omega) hpiece hlost before

theorem refusesCut_of_each (hagrees : r.Agrees w) : r.Each Envelope.SmallSkip w →
    r.RefusesCut w := by
  refine hagrees.rule (P := fun r w => r.Each Envelope.SmallSkip w → r.RefusesCut w) ?_ ?_ ?_
  · intro w _ g hview before cut tail hcut htail _
    obtain rfl := (Prod.mk.inj (some.inj hview)).2
    exact absurd (append_eq_nil_iff.mp hcut.symm).2 htail
  · exact fun ih heach => refusesCut_raw (ih heach)
  · rintro e next w hagrees - ihNext ⟨hsmall, hbody, hlater⟩
    have hdecodes := decodes_of_each Envelope.decodes_of_smallSkip hagrees hbody
    apply refusesCut_struct (Envelope.decodes_of_smallSkip hdecodes hsmall)
    intro b hb
    replace hb := Envelope.mem_body_view hb
    exact ihNext b hb (hlater b hb)

end Reader

theorem keeps_advance (o : Int) : Keeps (advance o) := by
  intro it it' a h
  unfold advance at h
  split_ifs at h
  · obtain ⟨⟨bytes, it₁⟩, hcopy, hmap⟩ := map_eq_some_iff.mp h
    obtain ⟨-, rfl⟩ := Prod.mk.inj hmap
    exact (local_copy _).keeps _ _ _ hcopy
  · obtain ⟨-, rfl⟩ := Prod.mk.inj (some.inj h)
    change it.before.take _ ++ (it.before.drop _ ++ it.rest) = it.before ++ it.rest
    rw [← append_assoc, take_append_drop]

theorem keeps_getOff : Keeps getOff := by
  intro it it' a h
  obtain ⟨-, rfl⟩ := Prod.mk.inj (some.inj h)
  rfl

theorem keeps_getRemaining : Keeps getRemaining := by
  intro it it' a h
  obtain ⟨-, rfl⟩ := Prod.mk.inj (some.inj h)
  rfl

theorem keeps_decodeFinish (structEnd : Nat) : Keeps (decodeFinish structEnd) := by
  apply keeps_getOff.bind
  intro off
  split_ifs
  · exact (local_pure _).keeps
  · exact local_fail.keeps
  · exact keeps_advance _
  · exact (local_pure _).keeps

theorem keeps_decodeLength : Keeps decodeLength := by
  apply local_decodeU32.keeps.bind
  intro structLen
  apply keeps_getRemaining.bind
  intro remaining
  split_ifs
  · exact local_fail.keeps
  · exact keeps_getOff.bind fun _ => (local_pure _).keeps

theorem keeps_decodeStruct {α : Type} (version : Nat) {fields : UInt8 → Decoder α}
    (hfields : ∀ structV, Keeps (fields structV)) : Keeps (decodeStruct version fields) := by
  apply local_decodeU8.keeps.bind
  intro structV
  apply local_decodeU8.keeps.bind
  intro structCompat
  split_ifs
  · exact local_fail.keeps
  · apply keeps_decodeLength.bind
    intro structEnd
    apply (hfields structV).bind
    intro a
    exact (keeps_decodeFinish _).bind fun _ => (local_pure _).keeps

theorem Reader.keeps_decode (r : Reader) : Keeps r.decode := by
  induction r with
  | done => exact (local_pure _).keeps
  | raw n next ih =>
    apply (local_copy n).keeps.bind
    intro field
    exact (ih field).bind fun _ => (local_pure _).keeps
  | struct version body next ihBody ihNext =>
    apply (keeps_decodeStruct version ihBody).bind
    intro b
    exact (ihNext b).bind fun _ => (local_pure _).keeps

structure Envelope.Faithful (e : Envelope) : Prop where
  decodes : e.Decodes
  truncated : ∀ before cut tail, e.bytes = cut ++ tail → tail ≠ [] → e.decode ⟨before, cut⟩ = none
  overlong : ∀ before structV structCompat len rest, len < 2 ^ 32 → rest.length < len →
    e.decode ⟨before, header structV structCompat len ++ rest⟩ = none
  past : ∀ before structV structCompat len rest b it,
    Fits before (header structV structCompat len) rest → len < 2 ^ 32 →
    (e.body structV).decode ⟨before ++ header structV structCompat len, rest⟩ = some (b, it) →
    (before ++ header structV structCompat len).length + len < it.off →
    e.decode ⟨before, header structV structCompat len ++ rest⟩ = none
  bounded : Keeps e.decode

structure Reader.Faithful (r : Reader) (w : Written) : Prop where
  appends : ∀ bl, w.encode bl = bl ++ w.bytes
  each : r.Each Envelope.Faithful w
  decodes : ∀ before rest, Fits before w.bytes rest →
    (r.decode ⟨before, w.bytes ++ rest⟩).map (fun d => (d.1, d.2.rest))
      = (r.view w).map fun g => (g.1, g.2.bytes ++ rest)
  truncated : r.RefusesCut w
  bounded : Keeps r.decode

/-- A reader that decodes is faithful: it sees what was written and refuses what was cut. -/
theorem Envelope.faithful_of_decodes {e : Envelope} (hfits : e.bytes.length < 2 ^ 32)
    (h : e.Decodes) :
    e.Faithful where
  decodes := h
  truncated before cut tail hcut htail := decode_truncated hfits hcut htail before
  overlong before structV structCompat len rest hlen hshort := by
    rw [decode, decodeStruct_header _ _ _ _ hlen, if_pos (Or.inr hshort)]
  past before structV structCompat len rest b it hfits hlen hrun hpast := by
    rw [decode, decodeStruct_header _ _ _ _ hlen]
    split_ifs with hrefused
    · rfl
    · have hend : (before.length + 6 + len) % 2 ^ 32 = before.length + 6 + len := by
        apply Nat.mod_eq_of_lt
        simp only [Fits, length_append, length_header] at hfits
        omega
      rw [length_append, length_header] at hpast
      rw [hrun, hend, bind_some, decodeFinish_past (by omega) hpast]
      rfl
  bounded := keeps_decodeStruct _ fun structV => (e.body structV).keeps_decode

namespace Reader

variable {r : Reader} {w : Written}

theorem each_faithful (hagrees : r.Agrees w) (hfits : w.bytes.length < 2 ^ 32)
    (heach : r.Each Envelope.SmallSkip w) : r.Each Envelope.Faithful w := by
  refine Each.imp (fun hbody heach hfits hsmall => ?_) hagrees hfits heach
  apply Envelope.faithful_of_decodes hfits
  exact Envelope.decodes_of_smallSkip (decodes_of_each Envelope.decodes_of_smallSkip hbody heach)
    hsmall

theorem smallSkip_of_faithful (hagrees : r.Agrees w) (hfits : w.bytes.length < 2 ^ 32)
    (heach : r.Each Envelope.Faithful w) : r.Each Envelope.SmallSkip w := by
  refine Each.imp (fun hbody heach hfits hfaithful => ?_) hagrees hfits heach
  exact Envelope.smallSkip_of_decodes (decodes_of_each (fun _ h =>
    h.decodes) hbody heach) hfits hfaithful.decodes

/-- **Versioned structures.** Reading a message gives what the reader is to get, and takes it right
after each structure, exactly when no structure holds `2 ^ 31` or more bytes that are unknown to it.
-/
theorem faithful_iff_smallSkip (hagrees : r.Agrees w) (hfits : w.bytes.length < 2 ^ 32) :
    r.Faithful w ↔ r.Each Envelope.SmallSkip w := by
  constructor
  · exact fun h => smallSkip_of_faithful hagrees hfits h.each
  · intro h
    have hdecodes := decodes_of_each Envelope.decodes_of_smallSkip hagrees h
    refine ⟨w.encode_eq, each_faithful hagrees hfits h, fun before rest hall => ?_,
      refusesCut_of_each hagrees h, r.keeps_decode⟩
    cases hview : r.view w with
    | none =>
      rw [hdecodes.refuses hview _ _ hall]
      rfl
    | some g =>
      obtain ⟨used, hused, hreads⟩ := hdecodes.gets g hview
      rw [hused, append_assoc]
      rw [hreads]
      · rfl
      · rw [Fits, ← append_assoc, append_assoc before, ← hused]
        exact hall

def sampleMessage : Written :=
  .struct 2 1 (.raw [7] (.struct 1 1 (.raw [1] (.raw [2, 3] .done)) (.raw [9] .done))) .done

def sampleReader : Reader :=
  .struct 1 (fun _ => .raw 1 fun _ => .struct 1 (fun _ => .raw 1 fun _ => .done) fun _ => .done)
    fun _ => .done

/-- One structure inside of another. -/
theorem faithful_sampleMessage : sampleReader.view sampleMessage
        = some (.struct (.bytes [7] (.struct (.bytes [1] .done) .done)) .done, .done) ∧
      sampleReader.Faithful sampleMessage := by
  refine ⟨rfl, (faithful_iff_smallSkip ?_ ?_).mpr ?_⟩
  · simp [sampleReader, sampleMessage, Agrees]
  · simp [sampleMessage, Written.bytes_struct]
  · simp [sampleReader, sampleMessage, Each, Envelope.SmallSkip, Envelope.view, view]

def longMessage : Written := .struct 1 1 (.raw (List.replicate (2 ^ 31) 0) .done) .done

/-- The reader does not get over them. -/
theorem not_faithful_longMessage :
    ¬ (struct 1 (fun _ => .done) fun _ => .done).Faithful longMessage := by
  intro h
  have hlength : (Written.raw (List.replicate (2 ^ 31) 0) .done).bytes.length = 2 ^ 31 := by
    rw [Written.bytes_raw, Written.bytes_done, append_nil, length_replicate]
  have hfits : longMessage.bytes.length < 2 ^ 32 := by
    rw [longMessage, Written.bytes_struct, length_append, length_append, length_header, hlength]
    norm_num
  have hagrees : (struct 1 (fun _ => .done) fun _ => .done).Agrees longMessage :=
    ⟨trivial, fun _ _ => trivial⟩
  have hsmall := smallSkip_of_faithful hagrees hfits h.each
  have hskip := hsmall.1 (.done, .raw (List.replicate (2 ^ 31) 0) .done) rfl
  rw [hlength] at hskip
  exact absurd hskip (Nat.lt_irrefl _)

end Reader

end RadosGateway.Encoding
